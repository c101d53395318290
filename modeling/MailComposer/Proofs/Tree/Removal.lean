import MailComposer.Proofs.Tree.Throughout

/-!
Removal by id: the id is gone, and what can be found outside the subtrees that are removed is found
as before. Where ids are distinct, it takes one component out of the list that holds it.
-/
namespace MailComposer.Component

variable {i : String}

theorem pruneCells_eq_map (i : String) (cells : List (List Component)) :
    pruneCells i cells = cells.map (pruneList i) := by
  induction cells with
  | nil => rfl
  | cons cs rest ih => rw [pruneCells, ih, List.map_cons]

private theorem prune_eq_mapLists (i : String) (c : Component) :
    prune i c = mapLists (pruneList i) c := by
  cases c with
  | leaf => rfl
  | column => rw [prune, pruneCells_eq_map, mapLists]
  | container => rfl

private theorem pruneList_eq_filter (i : String) (cs : List Component) :
    pruneList i cs = (cs.map (mapLists (pruneList i))).filter (·.id ≠ i) := by
  induction cs with
  | nil => rfl
  | cons c rest ih =>
    rw [pruneList, List.map_cons, List.filter_cons, id_mapLists, ← prune_eq_mapLists, ← ih]
    split <;> simp_all

/-- A removal leaves out the components with the id wherever they stand. -/
theorem pruneList_eq_throughout (i : String) (tree : List Component) :
    pruneList i tree = throughout (List.filter (·.id ≠ i)) tree := by
  induction tree using forest_induction with
  | step cs ih =>
    rw [pruneList_eq_filter, throughout_eq, List.map_congr_left fun c hc =>
      mapLists_congr (ih c hc)]

private theorem aimed_filter : Aimed i (List.filter (·.id ≠ i)) := fun _ h =>
  List.filter_eq_self.mpr fun c hc => decide_eq_true (h c hc)

theorem pruneList_of_not_mem {cs : List Component} (h : i ∉ idsIn cs) : pruneList i cs = cs := by
  rw [pruneList_eq_throughout, throughout_of_absent aimed_filter cs h]

theorem not_mem_idsIn_pruneList (i : String) (cs : List Component) :
    i ∉ idsIn (pruneList i cs) := by
  induction cs using forest_induction with
  | step cs ih =>
    rw [pruneList_eq_filter, mem_idsIn_iff]
    rintro (htop | hbelow)
    · obtain ⟨c, hc, hi⟩ := List.mem_map.mp htop
      exact of_decide_eq_true (List.mem_filter.mp hc).2 hi
    · obtain ⟨d, hd, hi⟩ := List.mem_flatMap.mp hbelow
      obtain ⟨pruned, hpruned, hi⟩ := List.mem_flatMap.mp hi
      obtain ⟨c, hc, rfl⟩ := List.mem_map.mp (List.mem_filter.mp hd).1
      rw [lists_mapLists] at hpruned
      obtain ⟨l, hl, rfl⟩ := List.mem_map.mp hpruned
      exact ih c hc l hl hi

mutual

private theorem find?_prune {p : String} : ∀ {c : Component}, c.id ≠ i →
    (∀ e ∈ subtrees c, e.id = i → find? p e = none) →
    find? p (prune i c) = (find? p c).map (prune i)
  | .leaf j s l, _, _ => by
    by_cases hj : j = p <;> simp [prune, find?, hj]
  | .column j s w cells, _, h => by
    by_cases hj : j = p
    · simp [prune, find?, hj]
    · simp only [prune, find?, if_neg hj]
      exact findInCells?_pruneCells fun e he => h e (List.mem_cons_of_mem _ he)
  | .container j s children, _, h => by
    by_cases hj : j = p
    · simp [prune, find?, hj]
    · simp only [prune, find?, if_neg hj]
      exact findIn?_pruneList fun e he => h e (List.mem_cons_of_mem _ he)

/-- An id that stands in no subtree that is removed is found as before. -/
theorem findIn?_pruneList {p : String} : ∀ {cs : List Component},
    (∀ e ∈ subtreesIn cs, e.id = i → find? p e = none) →
    findIn? p (pruneList i cs) = (findIn? p cs).map (prune i)
  | [], _ => rfl
  | c :: rest, h => by
    obtain ⟨hc, hr⟩ := List.forall_mem_append.mp h
    rw [pruneList, findIn?]
    split
    · next hi => rw [hc c (mem_subtrees_self c) hi, Option.none_or, findIn?_pruneList hr]
    · next hi =>
      rw [findIn?, find?_prune hi hc, findIn?_pruneList hr, Option.map_or]

private theorem findInCells?_pruneCells {p : String} : ∀ {cells : List (List Component)},
    (∀ e ∈ subtreesInCells cells, e.id = i → find? p e = none) →
    findInCells? p (pruneCells i cells) = (findInCells? p cells).map (prune i)
  | [], _ => rfl
  | cs :: rest, h => by
    obtain ⟨hc, hr⟩ := List.forall_mem_append.mp h
    rw [pruneCells, findInCells?, findInCells?, findIn?_pruneList hc, findInCells?_pruneCells hr,
      Option.map_or]

end

private theorem childList?_prune (i : String) (column : Option UInt64) (c : Component) :
    childList? column (prune i c) = (childList? column c).map (pruneList i) := by
  cases c with
  | leaf => rfl
  | column _ _ _ cells =>
    rw [prune, pruneCells_eq_map, childList?, childList?, List.getElem?_map]
    cases cells[(column.getD 0).toNat]? <;> rfl
  | container => rfl

/-- Where ids are distinct, an id outside the subtree of another is outside all that a removal of
the other takes away. -/
theorem find?_of_isWithin {tree : List Component} (hn : (idsIn tree).Nodup) {p : String}
    (h : isWithin tree i p = false) : ∀ e ∈ subtreesIn tree, e.id = i → find? p e = none := by
  rintro e he rfl
  simpa [isWithin, findIn?_of_mem hn he] using h

theorem level?_delete {tree : List Component} (hn : (idsIn tree).Nodup) {parent : Option String}
    (h : ∀ p ∈ parent, isWithin tree i p = false) (column : Option UInt64) :
    level? (Tree.delete tree i) parent column = (level? tree parent column).map (pruneList i) := by
  cases parent with
  | none => rfl
  | some p =>
    rw [level?, level?, Tree.delete, findIn?_pruneList (find?_of_isWithin hn (h p rfl))]
    cases findIn? p tree with
    | none => rfl
    | some c => exact childList?_prune i column c

/-- Where ids are distinct, to take a component out of its list is to remove its id. -/
theorem Replaced.eq_delete {before after tree tree' : List Component} {c : Component}
    (h : Replaced (before ++ c :: after) (before ++ after) tree tree')
    (hn : (idsIn tree).Nodup) : tree' = Tree.delete tree c.id := by
  obtain ⟨hbefore, hafter⟩ := id_ne_of_around (h.nodup hn)
  have hnew : (before ++ c :: after).filter (·.id ≠ c.id) = before ++ after := by
    rw [List.filter_append, List.filter_cons_of_neg (by simp), aimed_filter before hbefore,
      aimed_filter after hafter]
  rw [Tree.delete, pruneList_eq_throughout]
  exact h.eq_throughout_of_nodup aimed_filter hnew hn

mutual

private theorem nodes_sublist : ∀ {c e : Component}, e ∈ subtrees c → (nodes e).Sublist (nodes c)
  | .leaf .., e, h => by rw [List.mem_singleton.mp h]
  | .column .., e, h => by
    rcases List.mem_cons.mp h with rfl | h
    · exact .refl _
    · exact (nodesInCells_sublist h).cons _
  | .container .., e, h => by
    rcases List.mem_cons.mp h with rfl | h
    · exact .refl _
    · exact (nodesIn_sublist h).cons _

private theorem nodesIn_sublist :
    ∀ {cs : List Component} {e : Component}, e ∈ subtreesIn cs → (nodes e).Sublist (nodesIn cs)
  | c :: rest, e, h => by
    rcases List.mem_append.mp h with h | h
    · exact (nodes_sublist h).trans (List.sublist_append_left ..)
    · exact (nodesIn_sublist h).trans (List.sublist_append_right ..)

private theorem nodesInCells_sublist : ∀ {cells : List (List Component)} {e : Component},
    e ∈ subtreesInCells cells → (nodes e).Sublist (nodesInCells cells)
  | cs :: rest, e, h => by
    rcases List.mem_append.mp h with h | h
    · exact (nodesIn_sublist h).trans (List.sublist_append_left ..)
    · exact (nodesInCells_sublist h).trans (List.sublist_append_right ..)

end

mutual

private theorem prune_subperm : ∀ {c e : Component}, c.id ≠ i → e ∈ subtrees c → e.id = i →
    (nodes e ++ nodes (prune i c)).Subperm (nodes c)
  | .leaf .., e, hc, h, he => absurd (List.mem_singleton.mp h ▸ he) hc
  | .column .., e, hc, h, he => by
    rcases List.mem_cons.mp h with rfl | h
    · exact absurd he hc
    · exact List.perm_middle.subperm.trans ((List.subperm_cons _).mpr (pruneCells_subperm h he))
  | .container .., e, hc, h, he => by
    rcases List.mem_cons.mp h with rfl | h
    · exact absurd he hc
    · exact List.perm_middle.subperm.trans ((List.subperm_cons _).mpr (pruneList_subperm h he))

/-- A component with the id is removed with all nodes below it, beside all that stays. -/
theorem pruneList_subperm : ∀ {cs : List Component} {e : Component}, e ∈ subtreesIn cs →
    e.id = i → (nodes e ++ nodesIn (pruneList i cs)).Subperm (nodesIn cs)
  | c :: rest, e, h, he => by
    rw [pruneList, nodesIn]
    split
    · rcases List.mem_append.mp h with h | h
      · exact ((nodes_sublist h).append (nodesIn_pruneList i rest)).subperm
      · exact (pruneList_subperm h he).trans (List.sublist_append_right ..).subperm
    · next hc =>
      rcases List.mem_append.mp h with h | h
      · rw [nodesIn, ← List.append_assoc]
        exact (prune_subperm hc h he).append (nodesIn_pruneList i rest).subperm
      · refine List.Subperm.trans ?_
          ((nodes_prune i c).subperm.append (pruneList_subperm h he))
        rw [nodesIn, ← List.append_assoc, ← List.append_assoc]
        exact (List.perm_append_comm.append_right _).subperm

private theorem pruneCells_subperm : ∀ {cells : List (List Component)} {e : Component},
    e ∈ subtreesInCells cells → e.id = i →
    (nodes e ++ nodesInCells (pruneCells i cells)).Subperm (nodesInCells cells)
  | cs :: rest, e, h, he => by
    rw [pruneCells, nodesInCells, nodesInCells]
    rcases List.mem_append.mp h with h | h
    · rw [← List.append_assoc]
      exact (pruneList_subperm h he).append (nodesInCells_pruneCells i rest).subperm
    · refine List.Subperm.trans ?_
        ((nodesIn_pruneList i cs).subperm.append (pruneCells_subperm h he))
      rw [← List.append_assoc, ← List.append_assoc]
      exact (List.perm_append_comm.append_right _).subperm

end

/-- An id that stands once in a forest, below a component that is removed, is gone with it. -/
theorem not_mem_pruneList_of_count {cs : List Component} {e : Component} {k : String}
    (he : e ∈ subtreesIn cs) (hi : e.id = i) (hk : k ∈ e.ids) (h1 : (idsIn cs).count k = 1) :
    k ∉ idsIn (pruneList i cs) := by
  intro hm
  obtain ⟨ns, hp, hs⟩ := pruneList_subperm he hi
  have hle := (hs.map Component.id).count_le k
  rw [(hp.map Component.id).count_eq, List.map_append, List.count_append] at hle
  have := List.count_pos_iff.mpr hk
  have := List.count_pos_iff.mpr hm
  unfold ids idsIn at *
  omega

end MailComposer.Component
