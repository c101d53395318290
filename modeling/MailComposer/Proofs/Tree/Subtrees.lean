import Mathlib.Data.List.Nodup
import MailComposer.Proofs.Tree.Nodes

/-!
The components of a forest with all that stands below them, in depth-first order. A search by id
gives the first of them that has it; where ids are distinct there is no other.
-/
namespace MailComposer.Component

mutual

/-- A component and all below it, each with its children. -/
def subtrees : Component → List Component
  | .leaf i s l => [.leaf i s l]
  | .column i s w cells => .column i s w cells :: subtreesInCells cells
  | .container i s children => .container i s children :: subtreesIn children

def subtreesIn : List Component → List Component
  | [] => []
  | c :: rest => subtrees c ++ subtreesIn rest

def subtreesInCells : List (List Component) → List Component
  | [] => []
  | cs :: rest => subtreesIn cs ++ subtreesInCells rest

end

/-- A component without those below it. -/
def bare : Component → Component
  | .leaf i s l => .leaf i s l
  | .column i s w _ => .column i s w []
  | .container i s _ => .container i s []

@[simp] theorem id_bare (c : Component) : c.bare.id = c.id := by
  cases c <;> rfl

theorem id_eq_of_bare {c d : Component} (h : c.bare = d.bare) : c.id = d.id := by
  rw [← id_bare c, h, id_bare]

@[simp] theorem subtreesIn_append (as bs : List Component) :
    subtreesIn (as ++ bs) = subtreesIn as ++ subtreesIn bs := by
  induction as with
  | nil => rfl
  | cons a as ih => simp only [List.cons_append, subtreesIn, ih, List.append_assoc]

@[simp] theorem subtreesInCells_append (as bs : List (List Component)) :
    subtreesInCells (as ++ bs) = subtreesInCells as ++ subtreesInCells bs := by
  induction as with
  | nil => rfl
  | cons a as ih => simp only [List.cons_append, subtreesInCells, ih, List.append_assoc]

mutual

private theorem map_bare_subtrees : ∀ c : Component, (subtrees c).map bare = nodes c
  | .leaf .. => rfl
  | .column _ _ _ cells => congrArg (_ :: ·) (map_bare_subtreesInCells cells)
  | .container _ _ children => congrArg (_ :: ·) (map_bare_subtreesIn children)

private theorem map_bare_subtreesIn : ∀ cs : List Component, (subtreesIn cs).map bare = nodesIn cs
  | [] => rfl
  | c :: rest => by
    rw [subtreesIn, List.map_append, map_bare_subtrees c, map_bare_subtreesIn rest, nodesIn]

private theorem map_bare_subtreesInCells : ∀ cells : List (List Component),
    (subtreesInCells cells).map bare = nodesInCells cells
  | [] => rfl
  | cs :: rest => by
    rw [subtreesInCells, List.map_append, map_bare_subtreesIn cs, map_bare_subtreesInCells rest,
      nodesInCells]

end

private theorem map_id_subtreesIn (tree : List Component) :
    (subtreesIn tree).map id = idsIn tree := by
  rw [idsIn, ← map_bare_subtreesIn, List.map_map]
  exact List.map_congr_left fun c _ => (id_bare c).symm

theorem mem_ids {i : String} {c : Component} : i ∈ c.ids ↔ ∃ d ∈ subtrees c, d.id = i := by
  rw [ids, ← map_bare_subtrees, List.map_map, List.mem_map]
  simp only [Function.comp_apply, id_bare]

theorem mem_idsIn {i : String} {tree : List Component} :
    i ∈ idsIn tree ↔ ∃ c ∈ subtreesIn tree, c.id = i := by
  rw [← map_id_subtreesIn, List.mem_map]

theorem idsIn_append (as bs : List Component) : idsIn (as ++ bs) = idsIn as ++ idsIn bs := by
  rw [← map_id_subtreesIn, subtreesIn_append, List.map_append, map_id_subtreesIn,
    map_id_subtreesIn]

theorem idsIn_cons (c : Component) (rest : List Component) :
    idsIn (c :: rest) = c.ids ++ idsIn rest :=
  List.map_append

mutual

theorem find?_eq_find (i : String) : ∀ c : Component, find? i c = (subtrees c).find? (·.id = i)
  | .leaf j s l => by
    by_cases hj : j = i <;> simp [find?, subtrees, Component.id, hj]
  | .column j s w cells => by
    by_cases hj : j = i
    · simp [find?, subtrees, Component.id, hj]
    · simp [find?, subtrees, Component.id, hj, findInCells?_eq_find i cells]
  | .container j s children => by
    by_cases hj : j = i
    · simp [find?, subtrees, Component.id, hj]
    · simp [find?, subtrees, Component.id, hj, findIn?_eq_find i children]

theorem findIn?_eq_find (i : String) :
    ∀ tree : List Component, findIn? i tree = (subtreesIn tree).find? (·.id = i)
  | [] => rfl
  | c :: rest => by
    rw [findIn?, subtreesIn, List.find?_append, find?_eq_find i c, findIn?_eq_find i rest]

private theorem findInCells?_eq_find (i : String) : ∀ cells : List (List Component),
    findInCells? i cells = (subtreesInCells cells).find? (·.id = i)
  | [] => rfl
  | cs :: rest => by
    rw [findInCells?, subtreesInCells, List.find?_append, findIn?_eq_find i cs,
      findInCells?_eq_find i rest]

end

section
variable {i : String} {c : Component} {tree : List Component}

theorem findIn?_eq_some (h : findIn? i tree = some c) : c ∈ subtreesIn tree ∧ c.id = i := by
  rw [findIn?_eq_find] at h
  exact ⟨List.mem_of_find?_eq_some h, by simpa using List.find?_some h⟩

theorem findIn?_eq_none : findIn? i tree = none ↔ i ∉ idsIn tree := by
  rw [findIn?_eq_find, List.find?_eq_none, ← map_id_subtreesIn]
  simp

theorem containsIn_iff : containsIn i tree = true ↔ i ∈ idsIn tree := by
  rw [containsIn, Option.isSome_iff_ne_none, Ne, findIn?_eq_none, not_not]

/-- Where ids are distinct, a component is found by its own id. -/
theorem findIn?_of_mem (hn : (idsIn tree).Nodup) (hc : c ∈ subtreesIn tree) :
    findIn? c.id tree = some c := by
  cases h : findIn? c.id tree with
  | none => exact absurd (mem_idsIn.mpr ⟨c, hc, rfl⟩) (findIn?_eq_none.mp h)
  | some d =>
    obtain ⟨hd, hid⟩ := findIn?_eq_some h
    rw [← map_id_subtreesIn] at hn
    rw [List.inj_on_of_nodup_map hn hd hc hid]

end

theorem mem_subtrees_self (c : Component) : c ∈ subtrees c := by
  cases c <;> exact List.mem_cons_self

theorem subset_subtreesIn (tree : List Component) : tree ⊆ subtreesIn tree := by
  induction tree with
  | nil => exact List.nil_subset _
  | cons c rest ih =>
    intro d hd
    rw [subtreesIn, List.mem_append]
    rcases List.mem_cons.mp hd with rfl | hd
    · exact .inl (mem_subtrees_self d)
    · exact .inr (ih hd)

private theorem subtreesIn_subset_cells {cs : List Component} {cells : List (List Component)}
    (h : cs ∈ cells) : subtreesIn cs ⊆ subtreesInCells cells := by
  obtain ⟨before, after, rfl⟩ := List.append_of_mem h
  simp [subtreesInCells]

mutual

theorem subtrees_trans : ∀ {c d : Component}, d ∈ subtrees c → subtrees d ⊆ subtrees c
  | .leaf .., _, h => by rw [List.mem_singleton.mp h]; exact List.Subset.refl _
  | .column .., _, h => by
    rcases List.mem_cons.mp h with rfl | h
    · exact List.Subset.refl _
    · exact List.subset_cons_of_subset _ (subtreesInCells_trans h)
  | .container .., _, h => by
    rcases List.mem_cons.mp h with rfl | h
    · exact List.Subset.refl _
    · exact List.subset_cons_of_subset _ (subtreesIn_trans h)

theorem subtreesIn_trans :
    ∀ {cs : List Component} {d : Component}, d ∈ subtreesIn cs → subtrees d ⊆ subtreesIn cs
  | c :: rest, d, h => by
    rcases List.mem_append.mp h with h | h
    · exact List.subset_append_of_subset_left _ (subtrees_trans h)
    · exact List.subset_append_of_subset_right _ (subtreesIn_trans h)

private theorem subtreesInCells_trans : ∀ {cells : List (List Component)} {d : Component},
    d ∈ subtreesInCells cells → subtrees d ⊆ subtreesInCells cells
  | cs :: rest, d, h => by
    rcases List.mem_append.mp h with h | h
    · exact List.subset_append_of_subset_left _ (subtreesIn_trans h)
    · exact List.subset_append_of_subset_right _ (subtreesInCells_trans h)

end

private theorem childList?_subset {c : Component} {column : Option UInt64} {cs : List Component}
    (h : childList? column c = some cs) : cs ⊆ subtrees c := by
  cases c with
  | leaf => cases h
  | column i s w cells =>
    obtain rfl := Option.some.inj h
    cases hk : cells[(column.getD 0).toNat]? with
    | none => exact List.nil_subset _
    | some cs =>
      have hcs := subtreesIn_subset_cells (List.mem_of_getElem? hk)
      exact List.subset_cons_of_subset _ (List.Subset.trans (subset_subtreesIn cs) hcs)
  | container i s children =>
    obtain rfl := Option.some.inj h
    exact List.subset_cons_of_subset _ (subset_subtreesIn _)

/-- What stands in a list under a parent stands in the forest. -/
theorem level?_subset {tree level : List Component} {parent : Option String}
    {column : Option UInt64} (h : level? tree parent column = some level) :
    level ⊆ subtreesIn tree := by
  cases parent with
  | none => cases h; exact subset_subtreesIn tree
  | some p =>
    obtain ⟨c, hc, h⟩ := Option.bind_eq_some_iff.mp h
    exact List.Subset.trans (childList?_subset h) (subtreesIn_trans (findIn?_eq_some hc).1)

end MailComposer.Component
