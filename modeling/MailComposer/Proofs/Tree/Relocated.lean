import MailComposer.Proofs.Tree.Insertion
import MailComposer.Proofs.Tree.Replaced

/-!
What a relocation does to a forest in which ids may repeat. The component that is searched for
cycles need not be the one that is taken out; still, either one subtree stands elsewhere as a whole,
or the forest is as it was.
-/
namespace MailComposer.Component

/-- One component is taken out of its list, with all below it; nothing else is changed. -/
def Taken (c : Component) (tree rest : List Component) : Prop :=
  ∃ before after, Replaced (before ++ c :: after) (before ++ after) tree rest

/-- A row of columns has got empty lists at its end, or nothing is changed at all. -/
inductive Extended : List Component → List Component → Prop
  | same (tree : List Component) : Extended tree tree
  | row {tree tree' : List Component} (before after : List Component) (i : String) (s : StyleMap)
      (widths : List String) (cells : List (List Component)) (n : Nat)
      (h : Replaced (before ++ .column i s widths cells :: after)
        (before ++ .column i s widths (cells ++ List.replicate n []) :: after) tree tree') :
      Extended tree tree'

/-- A row of columns with a list for each width; another component as it is. -/
def pad : Component → Component
  | .column i s widths cells => .column i s widths (padCells widths.length cells)
  | c => c

/-- The forest with all lists in the row of columns that is the parent at a target. -/
def padAt (t : Target) (tree : List Component) : List Component :=
  match t.parent with
  | none => tree
  | some p => modifyIn tree p pad

/-- A parent that is missing or cannot take a child at the target. -/
def Refuses (t : Target) : Option Component → Prop
  | none | some (.leaf ..) => True
  | some (.column _ _ widths _) => widths.length ≤ (t.column.getD 0).toNat
  | some (.container ..) => False

section
variable {c p p' : Component} {t : Target} {tree tree' : List Component} {i : String}

private theorem refuses_of_adopt? (h : adopt? c t p = none) : Refuses t (some p) := by
  cases p with
  | leaf => trivial
  | column =>
    simp only [adopt?] at h
    split at h
    · cases h
    · next hw => exact Nat.le_of_not_lt hw
  | container => cases h

theorem refuses_of_insert? (h : insert? tree c t = none) :
    ∃ p, t.parent = some p ∧ Refuses t (findIn? p tree) := by
  unfold insert? at h
  split at h
  · cases h
  · next p hp =>
    refine ⟨p, hp, ?_⟩
    cases hf : findIn? p tree with
    | none => trivial
    | some d =>
      rw [hf, Option.bind_eq_bind, Option.bind_some] at h
      cases ha : adopt? c t d with
      | none => exact refuses_of_adopt? ha
      | some d' =>
        obtain ⟨tree', hm⟩ := modifyIn?_of_findIn? (f := fun _ => d') hf
        rw [ha, Option.bind_some, hm] at h
        cases h

theorem taken_insertAt (index : Option UInt64) (c : Component) (cs : List Component) :
    ∃ before after, insertAt index c cs = before ++ c :: after ∧ cs = before ++ after :=
  ⟨_, _, rfl, (List.take_append_drop _ cs).symm⟩

private theorem pad_extended (p : Place) (d : Component) : Extended (p.put d) (p.put d.pad) := by
  cases d with
  | leaf => exact .same _
  | column i s widths cells =>
    exact .row p.left p.right i s widths cells _ (p.replaced_put _ _)
  | container => exact .same _

/-- Without its new child, the parent is as it was, with room made for the child. -/
theorem adopt?_taken (h : adopt? c t p = some p') (before after : List Component) :
    Taken c (before ++ p' :: after) (before ++ p.pad :: after) := by
  cases adopted_of_adopt? h with
  | @column i s widths left right cells cs hleft hwidth hcells =>
    obtain ⟨l, r, hnew, rfl⟩ := taken_insertAt t.index c cs
    refine ⟨l, r, ?_⟩
    rw [pad, hcells, hnew]
    exact .column before after i s widths left right .here
  | container i s children =>
    obtain ⟨l, r, hnew, rfl⟩ := taken_insertAt t.index c children
    refine ⟨l, r, ?_⟩
    rw [hnew]
    exact .container before after i s .here

theorem insert?_taken_padAt (h : insert? tree c t = some tree') :
    Extended tree (padAt t tree) ∧ Taken c tree' (padAt t tree) := by
  cases grown_of_insert? h with
  | top hparent =>
    obtain ⟨l, r, hnew, hold⟩ := taken_insertAt t.index c tree
    rw [padAt, hparent]
    refine ⟨.same tree, l, r, ?_⟩
    rw [hnew, hold]
    exact .here
  | @under i d d' _ hparent hfind hadopt hput =>
    obtain ⟨p, rfl, rfl, hmod⟩ := modifyIn?_put hfind hput
    have hpad : padAt t (p.put d) = p.put d.pad := by
      simp only [padAt, hparent, modifyIn, hmod, Option.getD_some]
    rw [hpad]
    obtain ⟨l, r, htaken⟩ := adopt?_taken hadopt p.left p.right
    exact ⟨pad_extended p d, l, r, htaken.inside (p.replaced_put _ _)⟩

/-- An insertion takes nothing from a forest: without the new component it is as before, but for
empty lists in a row of columns. -/
theorem insert?_taken (h : insert? tree c t = some tree') :
    ∃ room, Extended tree room ∧ Taken c tree' room :=
  ⟨_, insert?_taken_padAt h⟩

end

end MailComposer.Component

namespace MailComposer.Tree
open Component

/-- The reasons for which a relocation leaves the forest as it is. -/
inductive Stays (tree : List Component) (i : String) (t : Target) : Prop
  | absent (h : i ∉ idsIn tree)
  | noParent (p : String) (hp : t.parent = some p) (h : p ∉ idsIn tree)
  | ownSubtree (p : String) (hp : t.parent = some p) (h : isWithin tree i p = true)
  /-- Without the component, the parent is not there any more or takes no child. -/
  | refused (p : String) (c : Component) (rest : List Component) (hc : c.id = i)
      (hr : Taken c tree rest) (hp : t.parent = some p) (h : Refuses t (findIn? p rest))

/-- One component stands at the target with all below it, and all else is as it was, but for empty
lists in the row that has taken it. -/
def Moved (c : Component) (t : Target) (tree tree' : List Component) : Prop :=
  ∃ rest room, Taken c tree rest ∧ Extended rest room ∧ Taken c tree' room ∧
    ∃ old new, level? rest t.parent t.column = some old ∧
      level? tree' t.parent t.column = some new ∧ Inserted t.index c old new

section
variable {tree rest : List Component} {i : String} {t : Target} {c : Component}

private theorem stays_of_not_reaches (h : reaches tree i t = false) : Stays tree i t := by
  unfold reaches at h
  split at h
  · cases h
  · next p hp =>
    rcases Bool.and_eq_false_iff.mp h with h | h
    · exact .ownSubtree p hp (by simpa using h)
    · exact .noParent p hp fun hi => Bool.eq_false_iff.mp h (containsIn_iff.mpr hi)

private theorem taken_of_detach? (h : detach? tree i = some (c, rest)) :
    c.id = i ∧ Taken c tree rest := by
  obtain ⟨s, hs, he⟩ := atSibling?_eq_some h
  obtain ⟨rfl, rfl⟩ := Prod.mk.inj he
  exact ⟨(site?_valid hs).found_id, s.before, s.after, site?_replaced hs _⟩

private theorem not_mem_of_detach? (h : detach? tree i = none) : i ∉ idsIn tree := by
  rw [detach?, atSibling?_eq_edit, Option.map_eq_none_iff] at h
  exact site?_eq_none_iff.mp h

/-- Whatever ids repeat, no node is lost or doubled on the way to another place: either the forest
is left as it was, for one of the reasons why it stays, or one component has moved as a whole. -/
theorem relocate_moves_one (tree : List Component) (i : String) (t : Target) :
    (nodesIn (relocate tree i t)).Perm (nodesIn tree) ∧
      ((Stays tree i t ∧ relocate tree i t = tree) ∨
        ∃ c, c.id = i ∧ Moved c t tree (relocate tree i t)) := by
  refine ⟨nodesIn_relocate_perm tree i t, ?_⟩
  cases hreach : reaches tree i t with
  | false => exact .inl ⟨stays_of_not_reaches hreach, by simp [relocate, hreach]⟩
  | true =>
    cases hd : detach? tree i with
    | none => exact .inl ⟨.absent (not_mem_of_detach? hd), by simp [relocate, hreach, hd]⟩
    | some d =>
      obtain ⟨c, rest⟩ := d
      obtain ⟨hc, htaken⟩ := taken_of_detach? hd
      cases hi : insert? rest c t with
      | none =>
        obtain ⟨p, hp, hrefuses⟩ := refuses_of_insert? hi
        exact .inl ⟨.refused p c rest hc htaken hp hrefuses, by simp [relocate, hreach, hd, hi]⟩
      | some tree' =>
        obtain ⟨room, hroom, hnew⟩ := insert?_taken hi
        obtain ⟨old, hold, hlevel⟩ := level?_insert? hi
        have hmoved : relocate tree i t = tree' := by simp [relocate, hreach, hd, hi]
        rw [hmoved]
        exact .inr ⟨c, hc, rest, room, htaken, hroom, hnew, old, _, hold, hlevel,
          insertAt_inserted t.index c old⟩

-- The search for cycles meets the inner "b", which has no "p" in it; what is taken out is the outer
-- one, and the parent with it.
example :
    let tree := [container "a" .empty [container "b" .empty []],
      container "b" .empty [container "p" .empty []]]
    reaches tree "b" (.inside "p") = true ∧ relocate tree "b" (.inside "p") = tree := by
  decide

end

end MailComposer.Tree
