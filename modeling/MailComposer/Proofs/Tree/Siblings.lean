import MailComposer.Proofs.Tree.Removal

/-!
The edits that stay in the list of the component they are made at: a copy behind it, a trade of
places with a neighbour, and its removal. A copy equals its source in all but the ids.
-/
namespace MailComposer.Component

mutual

/-- A component with all ids left out, its own and those below it. -/
def unnamed : Component → Component
  | .leaf _ s l => .leaf "" s l
  | .column _ s w cells => .column "" s w (unnamedCells cells)
  | .container _ s children => .container "" s (unnamedList children)

def unnamedList : List Component → List Component
  | [] => []
  | c :: rest => unnamed c :: unnamedList rest

def unnamedCells : List (List Component) → List (List Component)
  | [] => []
  | cs :: rest => unnamedList cs :: unnamedCells rest

end

section
variable {σ : Type} [IdSource σ]

mutual

/-- Fresh ids are all that a copy has of its own. -/
theorem unnamed_refresh : ∀ (ids : σ) (c : Component), (refresh ids c).1.unnamed = c.unnamed
  | _, .leaf .. => rfl
  | ids, .column _ s w cells =>
    congrArg (Component.column "" s w) (unnamedCells_refreshCells (IdSource.next ids).2 cells)
  | ids, .container _ s children =>
    congrArg (Component.container "" s) (unnamedList_refreshList (IdSource.next ids).2 children)

private theorem unnamedList_refreshList : ∀ (ids : σ) (cs : List Component),
    unnamedList (refreshList ids cs).1 = unnamedList cs
  | _, [] => rfl
  | ids, c :: rest =>
    congrArg₂ List.cons (unnamed_refresh ids c) (unnamedList_refreshList (refresh ids c).2 rest)

private theorem unnamedCells_refreshCells : ∀ (ids : σ) (cells : List (List Component)),
    unnamedCells (refreshCells ids cells).1 = unnamedCells cells
  | _, [] => rfl
  | ids, cs :: rest =>
    congrArg₂ List.cons (unnamedList_refreshList ids cs)
      (unnamedCells_refreshCells (refreshList ids cs).2 rest)

end

end

end MailComposer.Component

namespace MailComposer.Tree
open Component

/-- A copy stands behind the component that is copied, in the list that holds it. -/
theorem duplicate_replaced {σ : Type} [IdSource σ] {tree : List Component} {i : String}
    {s : Site (List Component)} (h : site? i tree = some s) (ids : σ) :
    ∃ copy, copy.unnamed = s.found.unnamed ∧ (duplicate tree i ids).1 = some copy.id ∧
      Replaced s.siblings (s.before ++ s.found :: copy :: s.after) tree
        (duplicate tree i ids).2.1 := by
  rw [duplicate_of_site h]
  exact ⟨_, unnamed_refresh ids s.found, rfl, site?_replaced h _⟩

/-- At the root, a copy goes behind the first component with the id. -/
theorem duplicate_root {σ : Type} [IdSource σ] {before : List Component} {c : Component}
    (hb : ∀ b ∈ before, b.id ≠ c.id) (after : List Component) (ids : σ) :
    ∃ copy, copy.unnamed = c.unnamed ∧
      (duplicate (before ++ c :: after) c.id ids).2.1 = before ++ c :: copy :: after := by
  have site : site? c.id (before ++ c :: after) = some ⟨before, c, after, fun cs => cs⟩ := by
    rw [site?, siteHere?_around hb rfl, Option.some_or]
  rw [duplicate_of_site site]
  exact ⟨_, unnamed_refresh ids c, rfl⟩

/-- A component trades places with the sibling next to it, if there is one on that side. -/
inductive Traded : Direction → Component → List Component → List Component → Prop
  | up (before : List Component) (n c : Component) (after : List Component) :
      Traded .up c (before ++ n :: c :: after) (before ++ c :: n :: after)
  | first (c : Component) (after : List Component) : Traded .up c (c :: after) (c :: after)
  | down (before : List Component) (c n : Component) (after : List Component) :
      Traded .down c (before ++ c :: n :: after) (before ++ n :: c :: after)
  | last (before : List Component) (c : Component) :
      Traded .down c (before ++ [c]) (before ++ [c])

private theorem swapped_traded (d : Direction) (before : List Component) (c : Component)
    (after : List Component) :
    Traded d c (before ++ c :: after) (swapped d before c after) := by
  cases d with
  | up =>
    simp only [swapped]
    split
    · next n hn =>
      obtain ⟨rest, rfl⟩ := List.getLast?_eq_some_iff.mp hn
      rw [List.dropLast_concat, List.append_assoc]
      exact .up rest n c after
    · next hn =>
      obtain rfl := List.getLast?_eq_none_iff.mp hn
      exact .first c after
  | down =>
    cases after with
    | nil => exact .last before c
    | cons n after => exact .down before c n after

theorem move_of_site {tree : List Component} {i : String} {s : Site (List Component)}
    (h : site? i tree = some s) (d : Direction) :
    move tree i d = s.around (swapped d s.before s.found s.after) := by
  simp only [move, atSibling?_eq_edit, h, Option.map_some, Site.edit]

theorem atSibling?_move {tree : List Component} {i : String} {s : Site (List Component)}
    (h : site? i tree = some s) (d : Direction) :
    atSibling? i (fun before c after => ((), swapped d before c after)) tree =
      some ((), move tree i d) := by
  rw [move_of_site h, atSibling?_eq_edit, h]
  rfl

theorem move_replaced {tree : List Component} {i : String} {s : Site (List Component)}
    (h : site? i tree = some s) (d : Direction) : ∃ traded,
      Traded d s.found s.siblings traded ∧ Replaced s.siblings traded tree (move tree i d) := by
  rw [move_of_site h]
  exact ⟨_, swapped_traded d s.before s.found s.after, site?_replaced h _⟩

theorem move_of_none {tree : List Component} {i : String} (h : site? i tree = none)
    (d : Direction) : move tree i d = tree := by
  simp only [move, atSibling?_eq_edit, h, Option.map_none]

/-- Where ids are distinct, a trade of places is an edit that is made throughout. -/
theorem move_eq_throughout {tree : List Component} (hn : (idsIn tree).Nodup) (i : String)
    (d : Direction) :
    move tree i d = throughout (editHere i (swapped d)) tree := by
  cases hs : site? i tree with
  | none =>
    have hi := site?_eq_none_iff.mp hs
    rw [move_of_none hs, throughout_of_absent aimed_editHere tree hi]
  | some s =>
    obtain rfl := (site?_valid hs).found_id
    rw [move_of_site hs]
    exact (site?_replaced hs _).eq_editHere hn

/-- Where ids are distinct, to detach a component is to find it and to remove its id. -/
theorem detach?_of_findIn? {tree : List Component} {i : String} {c : Component}
    (hn : (idsIn tree).Nodup) (h : findIn? i tree = some c) :
    detach? tree i = some (c, delete tree i) := by
  obtain ⟨s, hs, rfl⟩ := site?_of_findIn? hn h
  have hd := (site?_replaced hs (s.before ++ s.after)).eq_delete hn
  rw [(findIn?_eq_some h).2] at hd
  rw [detach?, atSibling?_eq_edit, hs, Option.map_some, ← hd]
  rfl

end MailComposer.Tree
