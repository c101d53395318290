import MailComposer.Proofs.Mutation.Positions
import MailComposer.Proofs.Mutation.Effects
import MailComposer.Proofs.Tree.Added

/-!
Mutations that go through and leave the forest as it is. Where ids are distinct these are the trades
of places at the end of a list and the relocations of a component to where it stands already; all
others show in the forest.
-/
namespace MailComposer

open Component

namespace Component
variable {tree : List Component} {c : Component} {t : Target}

/-- A list that is replaced without a trace is replaced by itself. -/
private theorem Replaced.eq_of_eq {old new tree tree' : List Component}
    (h : Replaced old new tree tree') (ht : tree' = tree) : new = old := by
  induction h with
  | here => exact ht
  | container before after i s _ ih =>
    apply ih
    simpa using ht
  | column before after i s widths left right _ ih =>
    apply ih
    simpa using ht

/-- A component stands where a target would put it, and the parent there lacks no list. -/
structure InPlace (tree : List Component) (c : Component) (t : Target) : Prop where
  stands : ∃ others siblings, level? tree t.parent t.column = some siblings ∧
    Inserted t.index c others siblings
  room : ∀ p ∈ t.parent, ∀ d ∈ findIn? p tree, d.Padded

private theorem Inserted.insertAt_eq {index : Option UInt64} {old new : List Component}
    (h : Inserted index c old new) : insertAt index c old = new := by
  obtain ⟨before, after, rfl, rfl, hlen⟩ := h
  rw [insertAt, ← hlen, List.take_left, List.drop_left]

theorem Inserted.mem {index : Option UInt64} {old new : List Component}
    (h : Inserted index c old new) : c ∈ new := by
  obtain ⟨before, after, -, rfl, -⟩ := h
  exact List.mem_append_right _ List.mem_cons_self

theorem Inserted.ne {index : Option UInt64} {old new : List Component}
    (h : Inserted index c old new) : new ≠ old := by
  obtain ⟨before, after, rfl, rfl, -⟩ := h
  intro he
  have hlen := congrArg List.length he
  simp at hlen

/-- What has taken a component lacks no list. -/
private theorem padded_of_insert? {tree' : List Component} (h : insert? tree c t = some tree') :
    ∀ p ∈ t.parent, ∀ d ∈ findIn? p tree', d.Padded := by
  intro p hp d hd
  cases grown_of_insert? h with
  | top hparent => rw [hparent] at hp; cases hp
  | @under i q q' _ hparent hfind hadopt hput =>
    obtain rfl : i = p := Option.some.inj (hparent.symm.trans hp)
    have hid : q'.id = i := (id_adopt? hadopt).trans (findIn?_eq_some hfind).2
    rw [findIn?_modifyIn? hput hfind hid] at hd
    obtain rfl := Option.some.inj hd
    cases adopted_of_adopt? hadopt with
    | @column _ s widths left right cells cs hleft hwidth hcells =>
      have hlen := congrArg List.length hcells
      rw [length_padCells, List.length_append, List.length_cons] at hlen
      rw [Padded, List.length_append, List.length_cons]
      omega
    | container => trivial

private theorem padCells_of_le {needed : Nat} {cells : List (List Component)}
    (h : needed ≤ cells.length) : padCells needed cells = cells := by
  rw [padCells, Nat.sub_eq_zero_of_le h, List.replicate_zero, List.append_nil]

/-- The parent `q` as what `g` puts around its list `cs`: any other list can stand there, and the
parent takes `c` in by inserting it into that list. -/
structure Surrounds (c : Component) (t : Target) (q : Component) (cs : List Component)
    (g : List Component → Component) : Prop where
  around : g cs = q
  id_eq : ∀ old, (g old).id = q.id
  replaced : ∀ old new before after,
    Replaced old new (before ++ g old :: after) (before ++ g new :: after)
  adopts : ∀ old q', adopt? c t (g old) = some q' → q' = g (insertAt t.index c old)

private theorem getElem?_of_childList? {column : Option UInt64} {i : String} {s : StyleMap}
    {widths : List String} {cells : List (List Component)} {cs : List Component} (hcs : cs ≠ [])
    (h : childList? column (.column i s widths cells) = some cs) :
    cells[(column.getD 0).toNat]? = some cs := by
  simp only [childList?, Option.some.injEq] at h
  cases hk : cells[(column.getD 0).toNat]? with
  | none =>
    rw [hk] at h
    exact absurd h.symm hcs
  | some l =>
    rw [hk] at h
    exact congrArg some h

private theorem exists_surrounds {q : Component} {cs : List Component} (hcs : cs ≠ [])
    (hq : childList? t.column q = some cs) (hpad : q.Padded) : ∃ g, Surrounds c t q cs g := by
  cases q with
  | leaf => cases hq
  | column i s widths cells =>
    obtain ⟨hlt, hget⟩ := List.getElem?_eq_some_iff.mp (getElem?_of_childList? hcs hq)
    obtain ⟨left, right, hcells, hleft, -⟩ := @List.exists_of_set _ _ cs _ hlt
    rw [hget] at hcells
    subst hcells
    refine ⟨fun l => .column i s widths (left ++ l :: right), rfl, fun _ => rfl,
      fun _ _ before after => .column before after i s widths left right .here, ?_⟩
    intro old q' h
    have hroom : widths.length ≤ (left ++ old :: right).length := by
      simpa only [Padded, List.length_append, List.length_cons] using hpad
    cases adopted_of_adopt? h with
    | @column _ _ _ left' right' _ old' hleft' hwidth hcells =>
      rw [padCells_of_le hroom] at hcells
      obtain ⟨rfl, hrest⟩ := List.append_inj hcells (hleft.trans hleft'.symm)
      obtain ⟨rfl, rfl⟩ := List.cons.inj hrest
      rfl
  | container i s children =>
    obtain rfl := Option.some.inj hq
    refine ⟨.container i s, rfl, fun _ => rfl,
      fun _ _ before after => .container before after i s .here, ?_⟩
    intro old q' h
    exact (Option.some.inj h).symm

theorem Replaced.findIn?_of_mem {old new tree tree' : List Component} {d : Component}
    (hn : (idsIn tree).Nodup) (h : Replaced old new tree tree') (hd : d ∈ old) :
    findIn? d.id tree = some d :=
  Component.findIn?_of_mem hn (h.subset (subset_subtreesIn _ hd))

/-- Where ids are distinct, there is one way to put a component in place of another. -/
theorem Replaced.eq_of_same {left right left' right' tree' tree'' : List Component}
    {d e : Component} (hn : (idsIn tree).Nodup)
    (h : Replaced (left ++ d :: right) (left ++ e :: right) tree tree')
    (h' : Replaced (left' ++ d :: right') (left' ++ e :: right') tree tree'') : tree'' = tree' := by
  let put (before : List Component) (_ : Component) (after : List Component) := before ++ e :: after
  have htree : tree' = throughout (editHere d.id put) tree := h.eq_editHere hn
  have htree' : tree'' = throughout (editHere d.id put) tree := h'.eq_editHere hn
  exact htree'.trans htree.symm

/-- Where ids are distinct, a component that is taken from its place and put there again makes no
difference. -/
theorem insert?_delete_of_inPlace (hn : (idsIn tree).Nodup) (h : InPlace tree c t)
    {tree' : List Component} (hi : insert? (Tree.delete tree c.id) c t = some tree') :
    tree' = tree := by
  obtain ⟨⟨others, siblings, hlevel, hins⟩, hroom⟩ := h
  have hinsert := hins.insertAt_eq
  have hne : siblings ≠ [] := List.ne_nil_of_mem hins.mem
  obtain ⟨before, after, hothers, hsiblings, -⟩ := hins
  have htaken {rest : List Component} (hr : Replaced siblings others tree rest) :
      rest = Tree.delete tree c.id := by
    rw [hothers, hsiblings] at hr
    exact hr.eq_delete hn
  cases grown_of_insert? hi with
  | top hparent =>
    rw [hparent, level?, Option.some.injEq] at hlevel
    subst hlevel
    rw [← htaken .here, hinsert]
  | @under i d d' _ hparent hfind hadopt hput =>
    rw [hparent] at hlevel
    obtain ⟨q, hq, hchild⟩ := Option.bind_eq_some_iff.mp hlevel
    obtain ⟨g, hg⟩ := exists_surrounds (c := c) hne hchild (hroom i hparent q hq)
    obtain ⟨place, hplace, -⟩ := modifyIn?_place hq
    rw [← hg.around] at hplace
    have hrest : place.put (g others) = Tree.delete tree c.id := by
      refine htaken ?_
      have hr := (hg.replaced siblings others place.left place.right).inside
        (place.replaced_put _ _)
      rwa [hplace] at hr
    have hback := place.replaced_put (g others) (g siblings)
    rw [hplace, hrest] at hback
    have hnrest : (idsIn (Tree.delete tree c.id)).Nodup :=
      hn.sublist ((nodesIn_pruneList c.id tree).map Component.id)
    -- The parent that takes the component in again is the one that it was taken from.
    have hfound : d = g others := by
      have hf := hback.findIn?_of_mem hnrest (List.mem_append_right _ List.mem_cons_self)
      rw [hg.id_eq, (findIn?_eq_some hq).2, hfind] at hf
      exact Option.some.inj hf
    subst hfound
    have hd' : d' = g siblings := hinsert ▸ hg.adopts others d' hadopt
    obtain ⟨e, left, right, he, hr⟩ := modifyIn?_replaced hput
    obtain rfl : g others = e := Option.some.inj (hfind.symm.trans he)
    rw [hd'] at hr
    exact hback.eq_of_same hnrest hr

end Component

namespace Tree

/-- Among siblings with distinct ids, a trade of places changes nothing at the end only. -/
theorem Traded.at_end {d : Direction} {c : Component} {siblings traded : List Component}
    (h : Traded d c siblings traded) (hsame : traded = siblings) (hn : (idsIn siblings).Nodup) :
    (d = .up ∧ ∃ after, siblings = c :: after) ∨
      (d = .down ∧ ∃ before, siblings = before ++ [c]) := by
  have distinct {before after : List Component} {a b : Component}
      (hn : (idsIn (before ++ a :: b :: after)).Nodup) : b ≠ a := fun hab =>
    (id_ne_of_around hn).2 b List.mem_cons_self (congrArg Component.id hab)
  cases h with
  | up before n _ after =>
    exact absurd (List.cons.inj (List.append_cancel_left hsame)).1 (distinct hn)
  | first _ after => exact .inl ⟨rfl, after, rfl⟩
  | down before _ n after =>
    exact absurd (List.cons.inj (List.append_cancel_left hsame)).1 (distinct hn)
  | last before => exact .inr ⟨rfl, before, rfl⟩

end Tree

namespace Mutation
variable {σ : Type} [IdSource σ] {tree : List Component} {ids : σ}

/-- The mutations that do not show in a forest: a first component that goes up in its list, a last
one that goes down, and one that goes to where it stands. -/
inductive Idle (tree : List Component) : Mutation → Prop
  | first {r : Ref} {c : Component} {after : List Component} (hr : r.find? tree = some c)
      (h : Listed (c :: after) tree) : Idle tree (.move r .up)
  | last {r : Ref} {before : List Component} {c : Component} (hr : r.find? tree = some c)
      (h : Listed (before ++ [c]) tree) : Idle tree (.move r .down)
  | inPlace {c : Component} {t : Target} (h : InPlace tree c t) : Idle tree (.relocate c.id t)

theorem move_eq_iff (hn : (idsIn tree).Nodup) {r : Ref} {c : Component} {d : Direction}
    (hr : r.find? tree = some c) : Tree.move tree c.id d = tree ↔ Idle tree (.move r d) := by
  constructor
  · intro h
    obtain ⟨s, hs, rfl⟩ := site?_of_findIn? hn (Ref.findIn?_of_find? hn hr)
    obtain ⟨traded, ht, hrep⟩ := Tree.move_replaced hs d
    have hsame : traded = s.siblings := hrep.eq_of_eq h
    have hlisted : Listed s.siblings tree := by rwa [h, hsame] at hrep
    obtain ⟨rfl, after, hend⟩ | ⟨rfl, before, hend⟩ := ht.at_end hsame (hrep.nodup hn)
    · exact .first hr (hend ▸ hlisted)
    · exact .last hr (hend ▸ hlisted)
  · intro hidle
    cases hidle with
    | @first _ e after hr' hl =>
      obtain rfl := Option.some.inj (hr.symm.trans hr')
      have hl : Listed ([] ++ c :: after) tree := hl
      exact Tree.move_of_replaced hn hl
    | @last _ before e hr' hl =>
      obtain rfl := Option.some.inj (hr.symm.trans hr')
      exact Tree.move_of_replaced hn hl

theorem relocate_eq_iff (hn : (idsIn tree).Nodup) {i : String} {t : Target}
    (h : containsIn i tree = true) (ht : checkTarget tree t = .ok ())
    (ha : checkAcyclic tree i t = .ok ()) :
    Tree.relocate tree i t = tree ↔ Idle tree (.relocate i t) := by
  obtain ⟨c, hc, -, hd, hi⟩ := relocate_of_checks hn h ht ha
  constructor
  · intro hsame
    obtain ⟨e, rest, old, new, he, -, -, -, hold, hnew, hins⟩ :=
      relocate_takesEffect (SerialIds.ofSeed "") hn h ht ha
    rw [hsame] at hnew hi
    obtain rfl := Option.some.inj (hold.symm.trans hnew)
    obtain rfl := (findIn?_eq_some he).2
    exact .inPlace ⟨⟨_, _, hold, hins⟩, padded_of_insert? hi⟩
  · intro hidle
    cases hidle with
    | @inPlace e _ hin =>
      obtain ⟨others, siblings, hlevel, hins⟩ := hin.stands
      have he := findIn?_of_mem hn (level?_subset hlevel hins.mem)
      obtain rfl := Option.some.inj (hc.symm.trans he)
      exact insert?_delete_of_inPlace hn hin hi

/-- Where ids are distinct, it is known which of the mutations that can be taken back leave the
forest as it is. -/
theorem Applied.components_eq_iff (hn : (idsIn tree).Nodup) {ids' : σ} {m : Mutation} {o : Outcome}
    (h : Applied tree ids m o ids') (hu : m.isUndoable = true) :
    o.components = tree ↔ Idle tree m := by
  cases h with
  | @add type t p hp ht =>
    refine iff_of_false (fun hsame => ?_) nofun
    have heffect : TakesEffect tree ids (.add type t) := add_takesEffect ids ht
    obtain ⟨old, new, -, hold, hnew, hins⟩ := heffect (p.build (IdSource.next ids).1)
    replace hsame : Tree.add tree (p.build (IdSource.next ids).1) t = tree := hsame
    rw [hsame] at hnew
    exact hins.ne (Option.some.inj (hnew.symm.trans hold))
  | update => cases hu
  | delete h =>
    refine iff_of_false (fun hsame => ?_) nofun
    obtain ⟨hold, hnew⟩ := delete_takesEffect ids h
    replace hsame : Tree.delete tree _ = tree := hsame
    rw [hsame] at hnew
    exact hnew hold
  | move h =>
    obtain ⟨c, hc, rfl⟩ := Option.map_eq_some_iff.mp (Ref.resolve?_eq_map tree _ ▸ h)
    exact move_eq_iff hn hc
  | duplicate h =>
    refine iff_of_false (fun hsame => ?_) nofun
    obtain ⟨c, hc, rfl⟩ := Option.map_eq_some_iff.mp (Ref.resolve?_eq_map tree _ ▸ h)
    obtain ⟨e, copy, before, after, he, -, -, hr⟩ := duplicate_takesEffect ids hn h
    obtain rfl := Option.some.inj (hc.symm.trans he)
    have hlen := congrArg List.length (hr.eq_of_eq hsame)
    simp at hlen
  | relocate h ht ha => exact relocate_eq_iff hn h ht ha

end Mutation

end MailComposer
