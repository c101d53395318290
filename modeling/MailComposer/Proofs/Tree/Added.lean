import MailComposer.Proofs.Tree.Padded
import MailComposer.Proofs.Tree.Relocated

/-!
Additions to a forest. The list that is addressed gets the new component; the lists under all other
addresses keep their ids, and the components that were there keep their content. To remove the new
component is to take the addition back, but for empty lists in the row that has taken it.
-/
namespace MailComposer.Component

/-- The ids of the children in one list. -/
def childIds? (column : Option UInt64) (c : Component) : Option (List String) :=
  (childList? column c).map (List.map id)

/-- The ids in the list under a parent. -/
def levelIds? (tree : List Component) (parent : Option String) (column : Option UInt64) :
    Option (List String) :=
  (level? tree parent column).map (List.map id)

/-- A target is in the list under a parent in a column. A container has one list for all columns. -/
def Addresses (t : Target) (tree : List Component) (parent : Option String)
    (column : Option UInt64) : Prop :=
  t.parent = parent ∧ ∀ p ∈ parent, ∀ i s widths cells,
    findIn? p tree = some (.column i s widths cells) → column.getD 0 = t.column.getD 0

/-- The same component, with children that have the same ids. -/
structure Alike (c d : Component) : Prop where
  bare : c.bare = d.bare
  childIds : ∀ column, childIds? column c = childIds? column d

theorem Alike.refl (c : Component) : Alike c c := ⟨rfl, fun _ => rfl⟩

private theorem alike_container {cs cs' : List Component} (h : cs'.map id = cs.map id) (i : String)
    (s : StyleMap) : Alike (.container i s cs') (.container i s cs) :=
  ⟨rfl, fun _ => congrArg some h⟩

private theorem alike_column {cells cells' : List (List Component)}
    (h : cells'.map (List.map id) = cells.map (List.map id)) (i : String) (s : StyleMap)
    (widths : List String) : Alike (.column i s widths cells') (.column i s widths cells) := by
  have ids (cells : List (List Component)) (n : Nat) :
      (cells[n]?.getD []).map id = (cells.map (List.map id))[n]?.getD [] := by
    rw [List.getElem?_map]
    cases cells[n]? <;> rfl
  refine ⟨rfl, fun column => congrArg some ?_⟩
  rw [ids, ids, h]

private theorem map_id_around {before after : List Component} {c d : Component} (h : d.id = c.id) :
    (before ++ d :: after).map id = (before ++ c :: after).map id := by
  rw [List.map_append, List.map_cons, h, ← List.map_cons, ← List.map_append]

theorem Replaced.map_id {old new tree tree' : List Component} (h : Replaced old new tree tree')
    (hid : new.map id = old.map id) : tree'.map id = tree.map id := by
  cases h with
  | here => exact hid
  | container | column => exact map_id_around rfl

private theorem mem_subtreesIn_around {before after : List Component} {c e : Component} :
    e ∈ subtreesIn (before ++ c :: after) ↔
      e ∈ subtreesIn before ∨ e ∈ subtrees c ∨ e ∈ subtreesIn after := by
  rw [subtreesIn_append, subtreesIn, List.mem_append, List.mem_append]

/-- Outside of a list that keeps its ids, components keep their content and the ids of their
children. -/
theorem Replaced.alike {old new tree tree' : List Component} (h : Replaced old new tree tree')
    (hid : new.map id = old.map id) : ∀ e ∈ subtreesIn tree,
      e ∈ subtreesIn old ∨ ∃ e' ∈ subtreesIn tree', Alike e' e := by
  induction h with
  | here => exact fun e he => .inl he
  | @container cs cs' before after i s h ih =>
    have hroot := alike_container (h.map_id hid) i s
    simp only [mem_subtreesIn_around, subtrees, List.mem_cons]
    rintro e (he | (rfl | he) | he)
    · exact .inr ⟨e, .inl he, .refl e⟩
    · exact .inr ⟨_, .inr (.inl (.inl rfl)), hroot⟩
    · rcases ih e he with he | ⟨e', he', ha⟩
      · exact .inl he
      · exact .inr ⟨e', .inr (.inl (.inr he')), ha⟩
    · exact .inr ⟨e, .inr (.inr he), .refl e⟩
  | @column cs cs' before after i s widths left right h ih =>
    have hcells : (left ++ cs' :: right).map (List.map id) = (left ++ cs :: right).map (List.map id) := by
      simp only [List.map_append, List.map_cons, h.map_id hid]
    have hroot := alike_column hcells i s widths
    simp only [mem_subtreesIn_around, subtrees, subtreesInCells_append, subtreesInCells,
      List.mem_append, List.mem_cons]
    rintro e (he | (rfl | he | he | he) | he)
    · exact .inr ⟨e, .inl he, .refl e⟩
    · exact .inr ⟨_, .inr (.inl (.inl rfl)), hroot⟩
    · exact .inr ⟨e, .inr (.inl (.inr (.inl he))), .refl e⟩
    · rcases ih e he with he | ⟨e', he', ha⟩
      · exact .inl he
      · exact .inr ⟨e', .inr (.inl (.inr (.inr (.inl he')))), ha⟩
    · exact .inr ⟨e, .inr (.inl (.inr (.inr (.inr he)))), .refl e⟩
    · exact .inr ⟨e, .inr (.inr he), .refl e⟩

section
variable {c p p' : Component} {t : Target} {tree tree' : List Component}

private theorem getD_padCells (needed n : Nat) (cells : List (List Component)) :
    (padCells needed cells)[n]?.getD [] = cells[n]?.getD [] := by
  unfold padCells
  rcases Nat.lt_or_ge n cells.length with hn | hn
  · rw [List.getElem?_append_left hn]
  · rw [List.getElem?_append_right hn, List.getElem?_eq_none hn, List.getElem?_replicate]
    split <;> rfl

/-- The columns of a row that are not addressed keep their children. -/
theorem childList?_adopt?_column {i : String} {s : StyleMap} {widths : List String}
    {cells : List (List Component)} (h : adopt? c t (.column i s widths cells) = some p')
    {column : Option UInt64} (hne : column.getD 0 ≠ t.column.getD 0) :
    childList? column p' = childList? column (.column i s widths cells) := by
  cases adopted_of_adopt? h with
  | @column _ _ _ left right _ cs hleft hwidth hcells =>
    have hn : left.length ≠ (column.getD 0).toNat := fun he =>
      hne (UInt64.toNat_inj.mp (he.symm.trans hleft))
    have hset : left ++ insertAt t.index c cs :: right =
        (left ++ cs :: right).set left.length (insertAt t.index c cs) := by
      rw [List.set_append_right _ _ (Nat.le_refl _), Nat.sub_self, List.set_cons_zero]
    rw [childList?, childList?, hset, List.getElem?_set_ne hn, ← hcells, getD_padCells]

private theorem subtreesIn_insertAt (index : Option UInt64) (c : Component) (cs : List Component) :
    subtreesIn cs ⊆ subtreesIn (insertAt index c cs) := by
  obtain ⟨before, after, hnew, rfl⟩ := taken_insertAt index c cs
  intro e he
  rw [hnew, mem_subtreesIn_around]
  rw [subtreesIn_append, List.mem_append] at he
  exact he.imp_right .inr

/-- What stands below the parent stays as it is. -/
theorem subtrees_adopt? (h : adopt? c t p = some p') : ∀ e ∈ subtrees p, e = p ∨ e ∈ subtrees p' := by
  intro e he
  cases adopted_of_adopt? h with
  | @column i s widths left right cells cs hleft hwidth hcells =>
    have hsub : subtreesInCells cells ⊆ subtreesInCells (left ++ cs :: right) := by
      rw [← hcells, padCells, subtreesInCells_append]
      exact List.subset_append_left _ _
    refine (List.mem_cons.mp he).imp_right fun he => List.mem_cons_of_mem _ ?_
    have he := hsub he
    simp only [subtreesInCells_append, subtreesInCells, List.mem_append] at he ⊢
    exact he.imp_right (.imp_left fun he => subtreesIn_insertAt t.index c cs he)
  | container i s children =>
    exact (List.mem_cons.mp he).imp_right fun he =>
      List.mem_cons_of_mem _ (subtreesIn_insertAt t.index c children he)

/-- A component of the forest is the parent of the new one, or keeps the ids of its children. -/
theorem insert?_alike (h : insert? tree c t = some tree') : ∀ e ∈ subtreesIn tree,
    (∃ i e', t.parent = some i ∧ findIn? i tree = some e ∧ adopt? c t e = some e' ∧
      e' ∈ subtreesIn tree') ∨ ∃ e' ∈ subtreesIn tree', Alike e' e := by
  cases grown_of_insert? h with
  | top => exact fun e he => .inr ⟨e, subtreesIn_insertAt t.index c tree he, .refl e⟩
  | @under i d d' _ hparent hfind hadopt hput =>
    obtain ⟨p, rfl, rfl, -⟩ := modifyIn?_put hfind hput
    have hr := p.replaced_put d d'
    have hin {e : Component}
        (he : e ∈ subtreesIn p.left ∨ e ∈ subtrees d' ∨ e ∈ subtreesIn p.right) :
        e ∈ subtreesIn (p.put d') := hr.symm.subset (mem_subtreesIn_around.mpr he)
    intro e he
    rcases hr.alike (map_id_around (id_adopt? hadopt)) e he with he | he
    · rcases mem_subtreesIn_around.mp he with he | he | he
      · exact .inr ⟨e, hin (.inl he), .refl e⟩
      · rcases subtrees_adopt? hadopt e he with rfl | he
        · exact .inl ⟨i, d', hparent, hfind, hadopt, hin (.inr (.inl (mem_subtrees_self d')))⟩
        · exact .inr ⟨e, hin (.inr (.inl he)), .refl e⟩
      · exact .inr ⟨e, hin (.inr (.inr he)), .refl e⟩
    · exact .inr he

theorem map_id_insert? (h : insert? tree c t = some tree') (ht : t.parent ≠ none) :
    tree'.map id = tree.map id := by
  cases grown_of_insert? h with
  | top hparent => exact absurd hparent ht
  | @under i d d' _ hparent hfind hadopt hput =>
    obtain ⟨p, rfl, rfl, -⟩ := modifyIn?_put hfind hput
    exact (p.replaced_put d d').map_id (map_id_around (id_adopt? hadopt))

/-- Without the new component the forest is as before, but for room in the row that has taken it. -/
theorem delete_insert? (h : insert? tree c t = some tree') (hn : (idsIn tree').Nodup) :
    Tree.delete tree' c.id = padAt t tree := by
  obtain ⟨-, before, after, hr⟩ := insert?_taken_padAt h
  exact (hr.eq_delete hn).symm

private theorem pad_of_padded (h : c.Padded) : c.pad = c := by
  cases c with
  | leaf | container => rfl
  | column =>
    rw [pad, padCells, Nat.sub_eq_zero_of_le h, List.replicate_zero, List.append_nil]

/-- A row that lacks no list stays as it is. -/
theorem padAt_of_padded (h : ∀ i ∈ t.parent, ∀ d ∈ findIn? i tree, d.Padded) :
    padAt t tree = tree := by
  unfold padAt
  split
  · rfl
  · next i hi =>
    unfold modifyIn
    cases hd : findIn? i tree with
    | none => rw [(modifyIn?_eq_none tree).mpr hd, Option.getD_none]
    | some d =>
      obtain ⟨place, hplace, hput⟩ := modifyIn?_place hd
      rw [hput, pad_of_padded (h i hi d hd), Option.getD_some, hplace]

theorem nodup_insert? (h : insert? tree c t = some tree') (hn : (c.ids ++ idsIn tree).Nodup) :
    (idsIn tree').Nodup := by
  have hp := (nodesIn_insert? h).map id
  rw [List.map_append] at hp
  exact hp.nodup_iff.mpr hn

/-- The lists under all other addresses keep their ids. -/
theorem levelIds?_insert? (h : insert? tree c t = some tree') (hn : (c.ids ++ idsIn tree).Nodup)
    {parent : Option String} {column : Option UInt64} (hp : ∀ i ∈ parent, i ∈ idsIn tree)
    (ha : ¬ Addresses t tree parent column) :
    levelIds? tree' parent column = levelIds? tree parent column := by
  have hn' := nodup_insert? h hn
  cases parent with
  | none =>
    have ht : t.parent ≠ none := fun ht => ha ⟨ht, nofun⟩
    exact congrArg some (map_id_insert? h ht)
  | some i =>
    obtain ⟨e, he, rfl⟩ := mem_idsIn.mp (hp i rfl)
    have hfound := findIn?_of_mem (List.nodup_append.mp hn).2.1 he
    have read {e' : Component} (he' : e' ∈ subtreesIn tree') (hb : e'.bare = e.bare) :
        findIn? e.id tree' = some e' := id_eq_of_bare hb ▸ findIn?_of_mem hn' he'
    rcases insert?_alike h e he with ⟨j, e', ht, hj, hadopt, he'⟩ | ⟨e', he', halike⟩
    · -- The parent keeps the lists of its other columns.
      have hej : e.id = j := (findIn?_eq_some hj).2
      rw [levelIds?, level?, read he' (bare_adopt? hadopt), levelIds?, level?, hfound]
      simp only [Option.bind_some]
      cases e with
      | leaf => cases hadopt
      | column k s widths cells =>
        have hne : column.getD 0 ≠ t.column.getD 0 := by
          intro heq
          exact ha ⟨by rw [ht, hej], fun _ _ _ _ _ _ _ => heq⟩
        rw [childList?_adopt?_column hadopt hne]
      | container k s children =>
        refine absurd ⟨by rw [ht, hej], ?_⟩ ha
        rintro _ ⟨⟩ i' s' widths cells hcolumn
        rw [hfound] at hcolumn
        cases hcolumn
    · rw [levelIds?, level?, read he' halike.bare, levelIds?, level?, hfound]
      exact halike.childIds column

/-- The components that were there keep their ids, styles and content. -/
theorem findIn?_insert? (h : insert? tree c t = some tree') (hn : (c.ids ++ idsIn tree).Nodup)
    {e : Component} (he : e ∈ subtreesIn tree) :
    ∃ e', findIn? e.id tree' = some e' ∧ e'.bare = e.bare := by
  obtain ⟨e', he', hb⟩ : ∃ e' ∈ subtreesIn tree', e'.bare = e.bare := by
    rcases insert?_alike h e he with ⟨_, e', -, -, hadopt, he'⟩ | ⟨e', he', halike⟩
    · exact ⟨e', he', bare_adopt? hadopt⟩
    · exact ⟨e', he', halike.bare⟩
  exact ⟨e', id_eq_of_bare hb ▸ findIn?_of_mem (nodup_insert? h hn) he', hb⟩

end

end MailComposer.Component

namespace MailComposer.Tree
open Component

/-- An addition goes to the place that is asked for and changes nothing else: each other list has
the ids it had, each component the content it had, and the removal of what is new takes it back, but
for the empty lists that a row of columns has got where it had too few. -/
theorem add_only_there {tree : List Component} {c : Component} {t : Target}
    (hn : (c.ids ++ idsIn tree).Nodup) (ht : ∀ p ∈ t.parent, ¬ Refuses t (findIn? p tree)) :
    let tree' := add tree c t
    (∃ old new, level? tree t.parent t.column = some old ∧
      level? tree' t.parent t.column = some new ∧ Inserted t.index c old new) ∧
    (∀ parent column, (∀ p ∈ parent, p ∈ idsIn tree) → ¬ Addresses t tree parent column →
      levelIds? tree' parent column = levelIds? tree parent column) ∧
    (∀ e ∈ subtreesIn tree, ∃ e', findIn? e.id tree' = some e' ∧ e'.bare = e.bare) ∧
    delete tree' c.id = padAt t tree ∧
      ((∀ p ∈ t.parent, ∀ d ∈ findIn? p tree, d.Padded) → padAt t tree = tree) := by
  cases h : insert? tree c t with
  | none =>
    obtain ⟨p, hp, hrefuses⟩ := refuses_of_insert? h
    exact absurd hrefuses (ht p hp)
  | some tree' =>
    obtain ⟨old, hold, hnew⟩ := level?_insert? h
    simp only [add, h, Option.getD_some]
    exact ⟨⟨old, _, hold, hnew, insertAt_inserted t.index c old⟩,
      fun _ _ hp ha => levelIds?_insert? h hn hp ha, fun _ he => findIn?_insert? h hn he,
      delete_insert? h (nodup_insert? h hn), padAt_of_padded⟩

/-- A row that lacks the list of its second column, in a container. -/
def board : List Component :=
  [.container "box" .empty [.leaf "a" .empty .divider,
    .column "row" .empty ["60%", "40%"] [[.leaf "c" .empty (.spacer "8px")]]]]

def notice : Component := .container "n" .empty [.leaf "m" .empty .divider]

theorem add_only_there_board :
    let t := (Target.inColumn "row" 1).atIndex 5
    let tree' := add board notice t
    (notice.ids ++ idsIn board).Nodup ∧ (∀ p ∈ t.parent, ¬ Refuses t (findIn? p board)) ∧
      (∃ old new, level? board t.parent t.column = some old ∧
        level? tree' t.parent t.column = some new ∧ Inserted t.index notice old new) ∧
      levelIds? tree' (some "row") none = levelIds? board (some "row") none ∧
      (∃ e', findIn? "row" tree' = some e' ∧ e'.bare = .column "row" .empty ["60%", "40%"] []) ∧
      delete tree' "n" = padAt t board := by
  have hn : (notice.ids ++ idsIn board).Nodup := by decide
  have ht : ∀ p ∈ ((Target.inColumn "row" 1).atIndex 5).parent,
      ¬ Refuses ((Target.inColumn "row" 1).atIndex 5) (findIn? p board) := by
    rintro _ ⟨⟩
    exact (by decide : ¬ 2 ≤ 1)
  obtain ⟨hlevel, hothers, hcontent, hdelete, -⟩ := add_only_there hn ht
  have hother : ¬ Addresses ((Target.inColumn "row" 1).atIndex 5) board (some "row") none :=
    fun h => absurd (h.2 "row" rfl _ _ _ _ rfl) (by decide)
  exact ⟨hn, ht, hlevel, hothers (some "row") none (by decide) hother,
    hcontent (.column "row" .empty ["60%", "40%"] [[.leaf "c" .empty (.spacer "8px")]])
      (by decide), hdelete⟩

end MailComposer.Tree
