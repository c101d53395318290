import MailComposer.Proofs.Tree.Edits
import MailComposer.Proofs.Tree.Subtrees

/-!
Edits at a component that a search finds: the same search finds the edited component afterwards. An
insertion puts the new component into the list that is addressed, at its index or at the end.
-/
namespace MailComposer.Component

private theorem find?_self {i : String} {c : Component} (h : c.id = i) : find? i c = some c := by
  cases c <;> exact if_pos h

section
variable {i : String} {f : Component → Component}

mutual

private theorem find?_modify? :
    ∀ {c c' d : Component}, modify? i f c = some c' → find? i c = some d →
    (f d).id = i → find? i c' = some (f d)
  | .leaf j s l, c', d, hm, hd, hf => by
    by_cases hj : j = i
    · simp only [modify?, find?, if_pos hj, Option.some.injEq] at hm hd
      subst hm hd
      exact find?_self hf
    · simp [modify?, hj] at hm
  | .column j s w cells, c', d, hm, hd, hf => by
    by_cases hj : j = i
    · simp only [modify?, find?, if_pos hj, Option.some.injEq] at hm hd
      subst hm hd
      exact find?_self hf
    · simp only [modify?, find?, if_neg hj, Option.map_eq_some_iff] at hm hd
      obtain ⟨cells', hc, rfl⟩ := hm
      rw [find?, if_neg hj, findInCells?_modifyInCells? hc hd hf]
  | .container j s children, c', d, hm, hd, hf => by
    by_cases hj : j = i
    · simp only [modify?, find?, if_pos hj, Option.some.injEq] at hm hd
      subst hm hd
      exact find?_self hf
    · simp only [modify?, find?, if_neg hj, Option.map_eq_some_iff] at hm hd
      obtain ⟨children', hc, rfl⟩ := hm
      rw [find?, if_neg hj, findIn?_modifyIn? hc hd hf]

/-- A search that leads to an edit leads to the edited component, if it keeps its id. -/
theorem findIn?_modifyIn? : ∀ {tree tree' : List Component} {d : Component},
    modifyIn? i f tree = some tree' → findIn? i tree = some d → (f d).id = i →
    findIn? i tree' = some (f d)
  | [], _, _, hm, _, _ => by simp [modifyIn?] at hm
  | c :: rest, tree', d, hm, hd, hf => by
    rw [findIn?] at hd
    simp only [modifyIn?] at hm
    split at hm
    · next c' hc =>
      obtain rfl := Option.some.inj hm
      obtain ⟨e, he, -⟩ := modify?_spliced hc
      rw [he, Option.some_or, Option.some.injEq] at hd
      rw [findIn?, find?_modify? hc (hd ▸ he) hf, Option.some_or]
    · next hc =>
      obtain ⟨rest', hr, rfl⟩ := Option.map_eq_some_iff.mp hm
      have hnone := (modify?_eq_none c).mp hc
      rw [hnone, Option.none_or] at hd
      rw [findIn?, hnone, Option.none_or, findIn?_modifyIn? hr hd hf]

private theorem findInCells?_modifyInCells? :
    ∀ {cells cells' : List (List Component)} {d : Component},
    modifyInCells? i f cells = some cells' → findInCells? i cells = some d → (f d).id = i →
    findInCells? i cells' = some (f d)
  | [], _, _, hm, _, _ => by simp [modifyInCells?] at hm
  | cs :: rest, cells', d, hm, hd, hf => by
    rw [findInCells?] at hd
    simp only [modifyInCells?] at hm
    split at hm
    · next cs' hc =>
      obtain rfl := Option.some.inj hm
      obtain ⟨e, he, -⟩ := modifyIn?_spliced hc
      rw [he, Option.some_or, Option.some.injEq] at hd
      rw [findInCells?, findIn?_modifyIn? hc (hd ▸ he) hf, Option.some_or]
    · next hc =>
      obtain ⟨rest', hr, rfl⟩ := Option.map_eq_some_iff.mp hm
      have hnone := (modifyIn?_eq_none cs).mp hc
      rw [hnone, Option.none_or] at hd
      rw [findInCells?, hnone, Option.none_or, findInCells?_modifyInCells? hr hd hf]

end

theorem modifyIn?_of_findIn? {tree : List Component} {d : Component} (h : findIn? i tree = some d) :
    ∃ tree', modifyIn? i f tree = some tree' := by
  cases hm : modifyIn? i f tree with
  | some tree' => exact ⟨tree', rfl⟩
  | none => exact absurd ((modifyIn?_eq_none tree).mp hm) (by simp [h])

end

/-- A list with one more component, at the index or at the end where the list is shorter. -/
def Inserted (index : Option UInt64) (c : Component) (old new : List Component) : Prop :=
  ∃ before after, old = before ++ after ∧ new = before ++ c :: after ∧
    before.length = min ((index.map UInt64.toNat).getD old.length) old.length

theorem insertAt_inserted (index : Option UInt64) (c : Component) (cs : List Component) :
    Inserted index c cs (insertAt index c cs) := by
  refine ⟨_, _, (List.take_append_drop _ cs).symm, rfl, ?_⟩
  rw [List.length_take]
  omega

section
variable {c p p' : Component} {t : Target} {tree tree' : List Component}

theorem bare_adopt? (h : adopt? c t p = some p') : p'.bare = p.bare := by
  cases adopted_of_adopt? h <;> rfl

theorem id_adopt? (h : adopt? c t p = some p') : p'.id = p.id :=
  id_eq_of_bare (bare_adopt? h)

/-- Missing lists of a column are there before anything is put into one of them. -/
theorem getElem?_padCells {needed n : Nat} (h : n < needed) (cells : List (List Component)) :
    (padCells needed cells)[n]? = some (cells[n]?.getD []) := by
  unfold padCells
  cases hc : cells[n]? with
  | some cs => rw [List.getElem?_append_left (List.getElem?_eq_some_iff.mp hc).1, hc]; rfl
  | none =>
    have hlen := List.getElem?_eq_none_iff.mp hc
    rw [List.getElem?_append_right hlen, List.getElem?_replicate, if_pos (by omega)]
    rfl

private theorem childList?_adopt? (h : adopt? c t p = some p') :
    ∃ old, childList? t.column p = some old ∧
      childList? t.column p' = some (insertAt t.index c old) := by
  cases adopted_of_adopt? h with
  | @column i s widths left right cells cs hleft hwidth hcells =>
    have hold : cells[(t.column.getD 0).toNat]?.getD [] = cs := by
      have hget := getElem?_padCells (hleft ▸ hwidth) cells
      rw [hcells, ← hleft, List.getElem?_append_right (Nat.le_refl _), Nat.sub_self] at hget
      rw [← hleft]
      exact (Option.some.inj hget).symm
    refine ⟨cs, congrArg some hold, ?_⟩
    rw [childList?, ← hleft, List.getElem?_append_right (Nat.le_refl _), Nat.sub_self]
    rfl
  | container i s children => exact ⟨children, rfl, rfl⟩

/-- The list that is addressed has the new component at its place. -/
theorem level?_insert? (h : insert? tree c t = some tree') :
    ∃ old, level? tree t.parent t.column = some old ∧
      level? tree' t.parent t.column = some (insertAt t.index c old) := by
  cases grown_of_insert? h with
  | top hparent =>
    rw [hparent]
    exact ⟨tree, rfl, rfl⟩
  | @under i p p' _ hparent hfind hadopt hput =>
    obtain ⟨old, hold, hnew⟩ := childList?_adopt? hadopt
    have hid : p'.id = i := (id_adopt? hadopt).trans (findIn?_eq_some hfind).2
    refine ⟨old, ?_, ?_⟩
    · rw [hparent, level?, hfind]
      exact hold
    · rw [hparent, level?, findIn?_modifyIn? hput hfind hid]
      exact hnew

/-- A component is put into a forest with all that stands below it. -/
theorem subtrees_subset_insert? (h : insert? tree c t = some tree') :
    subtrees c ⊆ subtreesIn tree' := by
  obtain ⟨old, -, hnew⟩ := level?_insert? h
  have hc : c ∈ insertAt t.index c old := List.mem_append_right _ List.mem_cons_self
  exact subtreesIn_trans (level?_subset hnew hc)

end

end MailComposer.Component
