import Mathlib.Data.List.Perm.Subperm
import MailComposer.Patch

/-!
The nodes of a forest: its components without their children, in depth-first order. An edit inside
one list or one component replaces one stretch of the nodes and keeps all others.
-/
namespace MailComposer

/-- One stretch of a list is replaced; what stands before and after it is kept. -/
def Spliced {α : Type} (old new xs ys : List α) : Prop :=
  ∃ before after, xs = before ++ old ++ after ∧ ys = before ++ new ++ after

namespace Spliced
variable {α : Type} {old new xs ys : List α}

theorem whole (old new : List α) : Spliced old new old new := ⟨[], [], by simp, by simp⟩

theorem append_left (zs : List α) (h : Spliced old new xs ys) :
    Spliced old new (zs ++ xs) (zs ++ ys) := by
  obtain ⟨before, after, rfl, rfl⟩ := h
  exact ⟨zs ++ before, after, by simp, by simp⟩

theorem append_right (zs : List α) (h : Spliced old new xs ys) :
    Spliced old new (xs ++ zs) (ys ++ zs) := by
  obtain ⟨before, after, rfl, rfl⟩ := h
  exact ⟨before, after ++ zs, by simp, by simp⟩

theorem cons (z : α) (h : Spliced old new xs ys) : Spliced old new (z :: xs) (z :: ys) :=
  h.append_left [z]

/-- What the new stretch has beyond the old one, the whole has beyond what it was. -/
theorem perm_append {extra : List α} (h : Spliced old new xs ys) (he : new.Perm (extra ++ old)) :
    ys.Perm (extra ++ xs) := by
  obtain ⟨before, after, rfl, rfl⟩ := h
  have hb : (before ++ new).Perm (extra ++ (before ++ old)) :=
    (he.append_left before).trans (by
      rw [← List.append_assoc, ← List.append_assoc]
      exact List.perm_append_comm.append_right old)
  simpa only [List.append_assoc] using hb.append_right after

theorem perm (h : Spliced old new xs ys) (hp : new.Perm old) : ys.Perm xs := by
  obtain ⟨before, after, rfl, rfl⟩ := h
  exact (hp.append_left before).append_right after

theorem map_eq {β : Type} {g : α → β} (h : Spliced old new xs ys) (hg : new.map g = old.map g) :
    ys.map g = xs.map g := by
  obtain ⟨before, after, rfl, rfl⟩ := h
  simp only [List.map_append, hg]

theorem symm (h : Spliced old new xs ys) : Spliced new old ys xs := by
  obtain ⟨before, after, hx, hy⟩ := h
  exact ⟨before, after, hy, hx⟩

end Spliced

namespace Component

mutual

/-- A component and all below it, each without its children. -/
def nodes : Component → List Component
  | .leaf i s l => [.leaf i s l]
  | .column i s w cells => .column i s w [] :: nodesInCells cells
  | .container i s children => .container i s [] :: nodesIn children

def nodesIn : List Component → List Component
  | [] => []
  | c :: rest => nodes c ++ nodesIn rest

def nodesInCells : List (List Component) → List Component
  | [] => []
  | cs :: rest => nodesIn cs ++ nodesInCells rest

end

/-- The ids of a component and of all below it. -/
def ids (c : Component) : List String := c.nodes.map id

def idsIn (tree : List Component) : List String := (nodesIn tree).map id

@[simp] theorem nodesInCells_append (as bs : List (List Component)) :
    nodesInCells (as ++ bs) = nodesInCells as ++ nodesInCells bs := by
  induction as with
  | nil => rfl
  | cons a as ih => simp only [List.cons_append, nodesInCells, ih, List.append_assoc]

@[simp] theorem nodesInCells_replicate (n : Nat) : nodesInCells (List.replicate n []) = [] := by
  induction n with
  | zero => rfl
  | succ n ih => simp only [List.replicate_succ, nodesInCells, nodesIn, ih, List.append_nil]

theorem nodesIn_perm {as bs : List Component} (h : as.Perm bs) :
    (nodesIn as).Perm (nodesIn bs) := by
  induction h with
  | nil => exact .refl _
  | cons a _ ih => exact ih.append_left (nodes a)
  | swap a b cs =>
    simp only [nodesIn, ← List.append_assoc]
    exact List.perm_append_comm.append_right (nodesIn cs)
  | trans _ _ ih ih' => exact ih.trans ih'

mutual

theorem modify?_eq_none {i : String} {f : Component → Component} :
    ∀ c : Component, modify? i f c = none ↔ find? i c = none
  | .leaf j s l => by by_cases hj : j = i <;> simp [modify?, find?, hj]
  | .column j s w cells => by
    by_cases hj : j = i
    · simp [modify?, find?, hj]
    · simp [modify?, find?, hj, modifyInCells?_eq_none cells]
  | .container j s children => by
    by_cases hj : j = i
    · simp [modify?, find?, hj]
    · simp [modify?, find?, hj, modifyIn?_eq_none children]

/-- An edit by id succeeds just where a search does. -/
theorem modifyIn?_eq_none {i : String} {f : Component → Component} :
    ∀ tree : List Component, modifyIn? i f tree = none ↔ findIn? i tree = none
  | [] => by simp [modifyIn?, findIn?]
  | c :: rest => by
    have hc := modify?_eq_none (i := i) (f := f) c
    have hr := modifyIn?_eq_none (i := i) (f := f) rest
    rw [modifyIn?, findIn?, Option.or_eq_none_iff, ← hc, ← hr]
    cases modify? i f c <;> simp

private theorem modifyInCells?_eq_none {i : String} {f : Component → Component} :
    ∀ cells : List (List Component), modifyInCells? i f cells = none ↔ findInCells? i cells = none
  | [] => by simp [modifyInCells?, findInCells?]
  | cs :: rest => by
    have hc := modifyIn?_eq_none (i := i) (f := f) cs
    have hr := modifyInCells?_eq_none (i := i) (f := f) rest
    rw [modifyInCells?, findInCells?, Option.or_eq_none_iff, ← hc, ← hr]
    cases modifyIn? i f cs <;> simp

end

mutual

theorem modify?_spliced {i : String} {f : Component → Component} :
    ∀ {c c' : Component}, modify? i f c = some c' →
      ∃ d, find? i c = some d ∧ Spliced (nodes d) (nodes (f d)) (nodes c) (nodes c')
  | .leaf j s l, c', h => by
    by_cases hj : j = i
    · simp only [modify?, if_pos hj, Option.some.injEq] at h
      subst h
      exact ⟨.leaf j s l, by rw [find?, if_pos hj], .whole _ _⟩
    · simp [modify?, hj] at h
  | .column j s w cells, c', h => by
    by_cases hj : j = i
    · simp only [modify?, if_pos hj, Option.some.injEq] at h
      subst h
      exact ⟨.column j s w cells, by rw [find?, if_pos hj], .whole _ _⟩
    · simp only [modify?, if_neg hj, Option.map_eq_some_iff] at h
      obtain ⟨cells', hc, rfl⟩ := h
      obtain ⟨d, hd, hs⟩ := modifyInCells?_spliced hc
      exact ⟨d, by rw [find?, if_neg hj, hd], hs.cons _⟩
  | .container j s children, c', h => by
    by_cases hj : j = i
    · simp only [modify?, if_pos hj, Option.some.injEq] at h
      subst h
      exact ⟨.container j s children, by rw [find?, if_pos hj], .whole _ _⟩
    · simp only [modify?, if_neg hj, Option.map_eq_some_iff] at h
      obtain ⟨children', hc, rfl⟩ := h
      obtain ⟨d, hd, hs⟩ := modifyIn?_spliced hc
      exact ⟨d, by rw [find?, if_neg hj, hd], hs.cons _⟩

/-- The edit of the component that a search finds shows in the nodes of that component only. -/
theorem modifyIn?_spliced {i : String} {f : Component → Component} :
    ∀ {tree tree' : List Component}, modifyIn? i f tree = some tree' →
      ∃ d, findIn? i tree = some d ∧ Spliced (nodes d) (nodes (f d)) (nodesIn tree) (nodesIn tree')
  | [], _, h => by simp [modifyIn?] at h
  | c :: rest, tree', h => by
    simp only [modifyIn?] at h
    split at h
    · next c' hc =>
      obtain ⟨d, hd, hs⟩ := modify?_spliced hc
      obtain rfl := Option.some.inj h
      exact ⟨d, by rw [findIn?, hd, Option.some_or], hs.append_right _⟩
    · next hc =>
      obtain ⟨rest', hr, rfl⟩ := Option.map_eq_some_iff.mp h
      obtain ⟨d, hd, hs⟩ := modifyIn?_spliced hr
      exact ⟨d, by rw [findIn?, (modify?_eq_none c).mp hc, Option.none_or, hd], hs.append_left _⟩

private theorem modifyInCells?_spliced {i : String} {f : Component → Component} :
    ∀ {cells cells' : List (List Component)}, modifyInCells? i f cells = some cells' →
      ∃ d, findInCells? i cells = some d ∧
        Spliced (nodes d) (nodes (f d)) (nodesInCells cells) (nodesInCells cells')
  | [], _, h => by simp [modifyInCells?] at h
  | cs :: rest, cells', h => by
    simp only [modifyInCells?] at h
    split at h
    · next cs' hc =>
      obtain ⟨d, hd, hs⟩ := modifyIn?_spliced hc
      obtain rfl := Option.some.inj h
      exact ⟨d, by rw [findInCells?, hd, Option.some_or], hs.append_right _⟩
    · next hc =>
      obtain ⟨rest', hr, rfl⟩ := Option.map_eq_some_iff.mp h
      obtain ⟨d, hd, hs⟩ := modifyInCells?_spliced hr
      exact ⟨d, by rw [findInCells?, (modifyIn?_eq_none cs).mp hc, Option.none_or, hd],
        hs.append_left _⟩

end

end Component

end MailComposer
