import Mathlib.Data.List.Nodup
import MailComposer.Proofs.Tree.Holding
import MailComposer.Proofs.Tree.Throughout

/-!
Loci of a forest: the way down to a list, and an index in it. Where ids are distinct, an id has one
locus, and all searches for the id end there: those that go through each component before its next
sibling, and those that look through a whole list before they go down.
-/
namespace MailComposer.Component

/-- At each level the index of a component and the number of one of its lists. -/
abbrev Way : Type := List (Nat × Nat)

def listAt? : Way → List Component → Option (List Component)
  | [], cs => some cs
  | (k, l) :: way, cs => (cs[k]?.bind fun c => c.lists[l]?).bind (listAt? way)

def modifyList (l : Nat) (m : List Component → List Component) : Component → Component
  | .leaf i s x => .leaf i s x
  | .column i s w cells => .column i s w (cells.modify l m)
  | .container i s children => .container i s (if l = 0 then m children else children)

/-- The forest with another list at the end of the way. -/
def putList (new : List Component) : Way → List Component → List Component
  | [], _ => new
  | (k, l) :: way, cs => cs.modify k (modifyList l (putList new way))

section
variable {i : String} {way : Way} {tree cs : List Component}

private theorem listAt?_cons_eq_some {k l : Nat} : listAt? ((k, l) :: way) tree = some cs ↔
    ∃ c inner, tree[k]? = some c ∧ c.lists[l]? = some inner ∧ listAt? way inner = some cs := by
  simp only [listAt?, Option.bind_eq_some_iff]
  grind

private theorem modify_around {α : Type} (before after : List α) (a : α) (f : α → α) :
    (before ++ a :: after).modify before.length f = before ++ f a :: after := by
  induction before with
  | nil => rfl
  | cons b before ih => exact congrArg (b :: ·) ih

/-- There is a way to every list that can be replaced. -/
theorem Replaced.exists_way {old new tree' : List Component} (h : Replaced old new tree tree') :
    ∃ way, listAt? way tree = some old ∧ putList new way tree = tree' := by
  induction h with
  | here => exact ⟨[], rfl, rfl⟩
  | container before after i s _ ih =>
    obtain ⟨way, hlist, hput⟩ := ih
    refine ⟨(before.length, 0) :: way, ?_, ?_⟩
    · simp [listAt?, lists, hlist]
    · rw [putList, modify_around, modifyList, if_pos rfl, hput]
  | column before after i s widths left right _ ih =>
    obtain ⟨way, hlist, hput⟩ := ih
    refine ⟨(before.length, left.length) :: way, ?_, ?_⟩
    · simp [listAt?, lists, hlist]
    · rw [putList, modify_around, modifyList, modify_around, hput]

private theorem idsIn_perm (cs : List Component) :
    (idsIn cs).Perm (cs.map id ++ cs.flatMap idsBelow) :=
  List.perm_iff_count.mpr fun i => by rw [count_idsIn, List.count_append]

private theorem mem_below_of_lists {k l : Nat} {c : Component} {inner : List Component}
    (hc : tree[k]? = some c) (hl : c.lists[l]? = some inner) (hi : i ∈ idsIn inner) :
    i ∈ c.idsBelow ∧ i ∈ tree.flatMap idsBelow := by
  have hlist := List.mem_of_getElem? hl
  exact ⟨List.mem_flatMap.mpr ⟨inner, hlist, hi⟩,
    mem_idsIn_of_lists (List.mem_of_getElem? hc) hlist hi⟩

private theorem idsIn_subset_of_listAt? (h : listAt? way tree = some cs) :
    idsIn cs ⊆ idsIn tree := by
  induction way generalizing tree with
  | nil => exact Option.some.inj h ▸ List.Subset.refl _
  | cons step way ih =>
    obtain ⟨c, inner, hc, hl, hcs⟩ := listAt?_cons_eq_some.mp h
    intro i hi
    exact mem_idsIn_iff.mpr (.inr (mem_below_of_lists hc hl (ih hcs hi)).2)

/-- What stands once in a whole stands in one of its parts only. -/
private theorem index_unique {α β : Type} {f : α → List β} {xs : List α} {j k : Nat} {a b : α}
    {x : β} (hn : (xs.flatMap f).Nodup) (hj : xs[j]? = some a) (hk : xs[k]? = some b) (ha : x ∈ f a)
    (hb : x ∈ f b) : j = k := by
  have apart := List.pairwise_iff_getElem.mp (List.nodup_flatMap.mp hn).2
  obtain ⟨hjl, rfl⟩ := List.getElem?_eq_some_iff.mp hj
  obtain ⟨hkl, rfl⟩ := List.getElem?_eq_some_iff.mp hk
  rcases Nat.lt_trichotomy j k with h | h | h
  · exact absurd hb (apart j k hjl hkl h ha)
  · exact h
  · exact absurd ha (apart k j hkl hjl h hb)

private theorem nodup_of_lists {k l : Nat} {c : Component} {inner : List Component}
    (hn : (tree.flatMap idsBelow).Nodup) (hc : tree[k]? = some c) (hl : c.lists[l]? = some inner) :
    c.idsBelow.Nodup ∧ (idsIn inner).Nodup := by
  have hbelow := (List.nodup_flatMap.mp hn).1 c (List.mem_of_getElem? hc)
  exact ⟨hbelow, (List.nodup_flatMap.mp hbelow).1 inner (List.mem_of_getElem? hl)⟩

private theorem nodup_split (hn : (idsIn tree).Nodup) : (tree.map id).Nodup ∧
    (tree.flatMap idsBelow).Nodup ∧ (tree.map id).Disjoint (tree.flatMap idsBelow) :=
  List.nodup_append'.mp ((idsIn_perm tree).nodup_iff.mp hn)

private theorem nodup_of_listAt? (hn : (idsIn tree).Nodup) (h : listAt? way tree = some cs) :
    (idsIn cs).Nodup := by
  induction way generalizing tree with
  | nil => exact Option.some.inj h ▸ hn
  | cons step way ih =>
    obtain ⟨c, inner, hc, hl, hcs⟩ := listAt?_cons_eq_some.mp h
    exact ih (nodup_of_lists (nodup_split hn).2.1 hc hl).2 hcs

/-- Where ids are distinct, those of a list are not met again further down. -/
theorem not_mem_further_down {step : Nat × Nat} (hn : (idsIn tree).Nodup) (hi : i ∈ tree.map id)
    (h : listAt? (step :: way) tree = some cs) : i ∉ cs.map id := by
  obtain ⟨c, inner, hc, hl, hcs⟩ := listAt?_cons_eq_some.mp h
  intro hj
  have hin := idsIn_subset_of_listAt? hcs (mem_idsIn_iff.mpr (.inl hj))
  exact (nodup_split hn).2.2 hi (mem_below_of_lists hc hl hin).2

/-- Where ids are distinct, one way leads to a list with the id in it. -/
theorem way_unique {p q : Way} {ds : List Component} (hn : (idsIn tree).Nodup)
    (hp : listAt? p tree = some cs) (hq : listAt? q tree = some ds) (hi : i ∈ cs.map id)
    (hj : i ∈ ds.map id) : p = q := by
  induction p generalizing q tree with
  | nil =>
    cases q with
    | nil => rfl
    | cons step q =>
      obtain rfl := Option.some.inj hp
      exact absurd hj (not_mem_further_down hn hi hq)
  | cons step p ih =>
    cases q with
    | nil =>
      obtain rfl := Option.some.inj hq
      exact absurd hi (not_mem_further_down hn hj hp)
    | cons step' q =>
      obtain ⟨k, l⟩ := step
      obtain ⟨k', l'⟩ := step'
      obtain ⟨c, inner, hc, hl, hcs⟩ := listAt?_cons_eq_some.mp hp
      obtain ⟨d, inner', hd, hm, hds⟩ := listAt?_cons_eq_some.mp hq
      have hin := idsIn_subset_of_listAt? hcs (mem_idsIn_iff.mpr (.inl hi))
      have hin' := idsIn_subset_of_listAt? hds (mem_idsIn_iff.mpr (.inl hj))
      have hnbelow := (nodup_split hn).2.1
      -- The id stands below one component, and there in one list.
      obtain rfl : k = k' := index_unique hnbelow hc hd (mem_below_of_lists hc hl hin).1
        (mem_below_of_lists hd hm hin').1
      obtain rfl := Option.some.inj (hc.symm.trans hd)
      obtain ⟨hnlists, hninner⟩ := nodup_of_lists hnbelow hc hl
      obtain rfl : l = l' := index_unique hnlists hl hm hin hin'
      obtain rfl := Option.some.inj (hl.symm.trans hm)
      rw [ih hninner hcs hds]

private theorem Replaced.eq_putList {new tree' : List Component} (hn : (idsIn tree).Nodup)
    (hcs : listAt? way tree = some cs) (hi : i ∈ cs.map id) (h : Replaced cs new tree tree') :
    tree' = putList new way tree := by
  obtain ⟨way', hcs', rfl⟩ := h.exists_way
  rw [way_unique hn hcs hcs' hi hi]

end

/-- An index in the list at the end of a way. -/
structure Locus where
  way : Way
  index : Nat
deriving DecidableEq, Repr

def Locus.component? (s : Locus) (tree : List Component) : Option Component :=
  (listAt? s.way tree).bind (·[s.index]?)

section
variable {i : String} {tree : List Component}

private theorem Locus.component?_id_mem {s : Locus} {c : Component}
    (h : s.component? tree = some c) : c.id ∈ idsIn tree := by
  obtain ⟨cs, hcs, hc⟩ := Option.bind_eq_some_iff.mp h
  have hid := List.mem_map_of_mem (f := id) (List.mem_of_getElem? hc)
  exact idsIn_subset_of_listAt? hcs (mem_idsIn_iff.mpr (.inl hid))

/-- Where ids are distinct, an id has one locus. -/
theorem Locus.unique {s t : Locus} {c d : Component} (hn : (idsIn tree).Nodup)
    (hs : s.component? tree = some c) (ht : t.component? tree = some d) (hid : c.id = d.id) :
    s = t := by
  obtain ⟨way, j⟩ := s
  obtain ⟨way', k⟩ := t
  obtain ⟨cs, hcs, hc⟩ := Option.bind_eq_some_iff.mp hs
  obtain ⟨ds, hds, hd⟩ := Option.bind_eq_some_iff.mp ht
  have hmem := List.mem_map_of_mem (f := id) (List.mem_of_getElem? hc)
  have hmem' := List.mem_map_of_mem (f := id) (List.mem_of_getElem? hd)
  rw [← hid] at hmem'
  obtain rfl : way = way' := way_unique hn hcs hds hmem hmem'
  obtain rfl := Option.some.inj (hcs.symm.trans hds)
  have hnids := (nodup_split (nodup_of_listAt? hn hcs)).1
  have hj : (cs.map id)[j]? = some c.id := by rw [List.getElem?_map, hc, Option.map_some]
  have hk : (cs.map id)[k]? = some c.id := by rw [List.getElem?_map, hd, hid, Option.map_some]
  have hlt := (List.getElem?_eq_some_iff.mp hj).1
  obtain rfl : j = k := (List.getElem?_inj hlt hnids).mp (hj.trans hk.symm)
  rfl

end

/-- Where all searches for an id end: at one locus, with its component and the list around it. -/
structure Met (tree : List Component) (i : String) (s : Locus) (cs : List Component)
    (c : Component) : Prop where
  siblings : listAt? s.way tree = some cs
  component : cs[s.index]? = some c
  id : c.id = i
  only : ∀ t d, t.component? tree = some d → d.id = i → t = s
  find : findIn? i tree = some c
  modify : ∀ f, modifyIn? i f tree = some (putList (cs.set s.index (f c)) s.way tree)
  atSibling : ∀ {ρ : Type} (f : AtSibling ρ), atSibling? i f tree =
    let (r, new) := f (cs.take s.index) c (cs.drop (s.index + 1))
    some (r, putList new s.way tree)
  holding : listHolding? i tree = some cs
  next : siblingAfter? tree i = cs[s.index + 1]?.map Component.id
  within : ∀ j, isWithin tree i j = true ↔ j ∈ c.ids
  resolve : (Ref.named i).resolve? tree = some i

/-- All searches for an id come to nothing. -/
structure Missed (tree : List Component) (i : String) : Prop where
  nowhere : ∀ s c, Locus.component? s tree = some c → c.id ≠ i
  find : findIn? i tree = none
  modify : ∀ f, modifyIn? i f tree = none
  atSibling : ∀ {ρ : Type} (f : AtSibling ρ), atSibling? i f tree = none
  holding : listHolding? i tree = none
  next : siblingAfter? tree i = none
  within : ∀ j, isWithin tree i j = false
  resolve : (Ref.named i).resolve? tree = none

section
variable {i : String} {tree : List Component}

private theorem isSome_find? (j : String) (c : Component) :
    (c.find? j).isSome = true ↔ j ∈ c.ids := by
  rw [find?_eq_find, List.find?_isSome, mem_ids]
  simp

private theorem missed_of_not_mem (h : i ∉ idsIn tree) : Missed tree i := by
  have hfind := findIn?_eq_none.mpr h
  have hsite := site?_eq_none_iff.mpr h
  have hholding : listHolding? i tree = none := by
    rw [listHolding?_eq_siblings, hsite, Option.map_none]
  constructor
  case nowhere => exact fun s c hs hi => h (hi ▸ Locus.component?_id_mem hs)
  case find => exact hfind
  case modify => exact fun f => (modifyIn?_eq_none tree).mpr hfind
  case atSibling =>
    intro ρ f
    rw [atSibling?_eq_edit, hsite, Option.map_none]
  case holding => exact hholding
  case next => rw [siblingAfter?, hholding]; rfl
  case within =>
    intro j
    rw [isWithin, hfind]
  case resolve => rw [Ref.resolve?, containsIn, hfind]; rfl

/-- An edit of a component is one of the list that the edits among siblings take place in. -/
theorem modifyIn?_eq_putList {site : Site (List Component)} {way : Way} (hn : (idsIn tree).Nodup)
    (hfind : findIn? i tree = some site.found) (hway : listAt? way tree = some site.siblings)
    (f : Component → Component) : modifyIn? i f tree =
      some (putList (site.before ++ f site.found :: site.after) way tree) := by
  obtain ⟨place, hput, hmodify⟩ := modifyIn?_place hfind
  have hr := place.replaced_put site.found (f site.found)
  rw [hput] at hr
  obtain ⟨way', hlist, hnew⟩ := hr.exists_way
  have hs : Locus.component? ⟨way, site.before.length⟩ tree = some site.found := by
    simp [Locus.component?, hway, Site.siblings]
  have ht : Locus.component? ⟨way', place.left.length⟩ tree = some site.found := by
    simp [Locus.component?, hlist]
  obtain ⟨rfl, hlength⟩ := Locus.mk.inj (Locus.unique hn hs ht rfl)
  obtain ⟨hleft, hright⟩ :=
    List.append_inj (Option.some.inj (hway.symm.trans hlist)) hlength
  rw [hmodify, ← hnew, hleft, (List.cons.inj hright).2]

/-- The list is the one that edits among siblings take place in; the way to it is the only one. -/
theorem exists_met (hn : (idsIn tree).Nodup) (h : i ∈ idsIn tree) :
    ∃ s cs c, Met tree i s cs c := by
  cases hsite : site? i tree with
  | none => exact absurd h (site?_eq_none_iff.mp hsite)
  | some site =>
    have hv := site?_valid hsite
    have hlisted := site?_replaced hsite site.siblings
    rw [hv.around_siblings] at hlisted
    obtain ⟨way, hway, -⟩ := hlisted.exists_way
    have hfound : site.siblings[site.before.length]? = some site.found := by simp [Site.siblings]
    have hlocus : Locus.component? ⟨way, site.before.length⟩ tree = some site.found := by
      rw [Locus.component?, hway, Option.bind_some, hfound]
    have hfind : findIn? i tree = some site.found := by
      have hmem := findIn?_of_mem hn (site?_found_mem hsite)
      rwa [hv.found_id] at hmem
    have hput (new : List Component) : site.around new = putList new way tree := by
      have hid : i ∈ site.siblings.map id :=
        hv.found_id ▸ List.mem_map_of_mem (List.mem_of_getElem? hfound)
      exact (site?_replaced hsite new).eq_putList hn hway hid
    refine ⟨⟨way, site.before.length⟩, site.siblings, site.found, ?_⟩
    constructor
    case siblings => exact hway
    case component => exact hfound
    case id => exact hv.found_id
    case only => exact fun t d ht hd => Locus.unique hn ht hlocus (hd.trans hv.found_id.symm)
    case find => exact hfind
    case modify =>
      intro f
      rw [modifyIn?_eq_putList hn hfind hway]
      simp [Site.siblings]
    case atSibling =>
      intro ρ f
      rw [atSibling?_eq_edit, hsite, Option.map_some, Site.edit]
      simp [Site.siblings, hput]
    case holding => rw [listHolding?_eq_siblings, hsite, Option.map_some]
    case next =>
      have hnext : site.siblings[site.before.length + 1]? = site.after.head? := by
        rw [Site.siblings, List.getElem?_append_right (Nat.le_add_right ..),
          Nat.add_sub_cancel_left, List.getElem?_cons_succ, List.head?_eq_getElem?]
      rw [siblingAfter?_of_site? hsite, hnext]
    case within =>
      intro j
      rw [isWithin, hfind]
      exact isSome_find? j site.found
    case resolve => rw [Ref.resolve?, if_pos (containsIn_iff.mpr h)]

/-- Where ids are distinct, an id that occurs somewhere in the forest has one locus there, and each
search for it comes to this locus, with its component and the list around it. A search for any other
id comes to nothing. -/
theorem searches_meet (hn : (idsIn tree).Nodup) (i : String) :
    (i ∈ idsIn tree ∧ ∃ s cs c, Met tree i s cs c) ∨ (i ∉ idsIn tree ∧ Missed tree i) := by
  by_cases h : i ∈ idsIn tree
  · exact .inl ⟨h, exists_met hn h⟩
  · exact .inr ⟨h, missed_of_not_mem h⟩

end

/-- The second column of the cupboard. -/
def drawers : List Component :=
  [.leaf "label" .empty .divider,
    .container "box" .empty [.leaf "key" .empty .divider, .leaf "coin" .empty .divider]]

def cupboard : List Component :=
  [.leaf "top" .empty .divider, .column "row" .empty ["60%", "40%"] [[], drawers]]

theorem searches_meet_cupboard :
    (idsIn cupboard).Nodup ∧
      (∃ box, Met cupboard "box" ⟨[(1, 1)], 1⟩ drawers box ∧ "coin" ∈ box.ids) ∧
      (∃ cs c, Met cupboard "coin" ⟨[(1, 1), (1, 0)], 1⟩ cs c) ∧ Missed cupboard "lost" := by
  have hn : (idsIn cupboard).Nodup := by decide
  obtain ⟨-, s, cs, box, hbox⟩ := (searches_meet hn "box").resolve_right fun h => h.1 (by decide)
  obtain ⟨-, t, cs', coin, hcoin⟩ := (searches_meet hn "coin").resolve_right fun h => h.1 (by decide)
  obtain ⟨-, hlost⟩ := (searches_meet hn "lost").resolve_left fun h => absurd h.1 (by decide)
  obtain rfl : ⟨[(1, 1)], 1⟩ = s := hbox.only _ _ rfl rfl
  obtain rfl : ⟨[(1, 1), (1, 0)], 1⟩ = t := hcoin.only _ _ rfl rfl
  obtain rfl : drawers = cs := Option.some.inj hbox.siblings
  have hwithin : isWithin cupboard "box" "coin" = true := by decide
  exact ⟨hn, ⟨box, hbox, (hbox.within "coin").mp hwithin⟩, ⟨cs', coin, hcoin⟩, hlost⟩

/-- With an id that is given twice, the searches part. -/
example :
    let twice : List Component :=
      [.container "box" .empty [.leaf "a" .empty .divider], .leaf "a" .empty (.text "A")]
    findIn? "a" twice = some (.leaf "a" .empty .divider) ∧ listHolding? "a" twice = some twice := by
  decide

end MailComposer.Component
