import MailComposer.Proofs.Tree.Lasting

/-!
Rows of columns with a list of children for each width. Edits and patches keep the lists of all rows;
an insertion brings in those that a row lacks before it looks for the one that is addressed.
-/
namespace MailComposer.Component

/-- A row of columns has at least as many lists of children as widths. -/
def Padded : Component → Prop
  | .column _ _ widths cells => widths.length ≤ cells.length
  | .leaf .. | .container .. => True

instance : DecidablePred Padded
  | .column _ _ widths cells => inferInstanceAs (Decidable (widths.length ≤ cells.length))
  | .leaf .. | .container .. => inferInstanceAs (Decidable True)

/-- Each row of columns in the forest, at any depth, has a list of children for each width. -/
def PaddedIn (tree : List Component) : Prop := ∀ c ∈ subtreesIn tree, c.Padded

instance (tree : List Component) : Decidable (PaddedIn tree) :=
  inferInstanceAs (Decidable (∀ c ∈ subtreesIn tree, c.Padded))

section
variable {tree : List Component} {i : String} {s : StyleMap}

private theorem paddedIn_append {as bs : List Component} :
    PaddedIn (as ++ bs) ↔ PaddedIn as ∧ PaddedIn bs := by
  rw [PaddedIn, subtreesIn_append, List.forall_mem_append]
  rfl

private theorem paddedIn_cons {c : Component} {rest : List Component} :
    PaddedIn (c :: rest) ↔ PaddedIn [c] ∧ PaddedIn rest := by
  rw [← List.singleton_append, paddedIn_append]

private theorem paddedIn_iff_forall : PaddedIn tree ↔ ∀ c ∈ tree, PaddedIn [c] := by
  induction tree with
  | nil => exact ⟨fun _ => nofun, fun _ => nofun⟩
  | cons c rest ih => rw [paddedIn_cons, ih, List.forall_mem_cons]

@[simp] theorem paddedIn_leaf (l : Leaf) : PaddedIn [.leaf i s l] := by
  intro c hc
  rw [List.mem_singleton.mp hc]
  trivial

private theorem paddedIn_container {children : List Component} :
    PaddedIn [.container i s children] ↔ PaddedIn children := by
  simp [PaddedIn, subtreesIn, subtrees, Padded]

private theorem forall_mem_subtreesInCells {q : Component → Prop} {cells : List (List Component)} :
    (∀ c ∈ subtreesInCells cells, q c) ↔ ∀ cs ∈ cells, ∀ c ∈ subtreesIn cs, q c := by
  induction cells with
  | nil => exact ⟨fun _ => nofun, fun _ => nofun⟩
  | cons cs rest ih => rw [subtreesInCells, List.forall_mem_append, ih, List.forall_mem_cons]

private theorem paddedIn_column {widths : List String} {cells : List (List Component)} :
    PaddedIn [.column i s widths cells] ↔
      widths.length ≤ cells.length ∧ ∀ cs ∈ cells, PaddedIn cs := by
  simp [PaddedIn, subtreesIn, subtrees, Padded, forall_mem_subtreesInCells]

end

private theorem Replaced.paddedIn {old new tree tree' : List Component}
    (h : Replaced old new tree tree')
    (ht : PaddedIn tree) : PaddedIn old ∧ (PaddedIn new → PaddedIn tree') := by
  induction h with
  | here => exact ⟨ht, fun h => h⟩
  | container before after i s h ih =>
    rw [paddedIn_append, paddedIn_cons, paddedIn_container] at ht ⊢
    obtain ⟨hold, hnew⟩ := ih ht.2.1
    exact ⟨hold, fun h => ⟨ht.1, hnew h, ht.2.2⟩⟩
  | column before after i s widths left right h ih =>
    rw [paddedIn_append, paddedIn_cons, paddedIn_column, List.forall_mem_append,
      List.forall_mem_cons] at ht ⊢
    obtain ⟨hb, ⟨hlen, hl, hcs, hr⟩, ha⟩ := ht
    obtain ⟨hold, hnew⟩ := ih hcs
    rw [List.length_append, List.length_cons] at hlen ⊢
    exact ⟨hold, fun h => ⟨hb, ⟨hlen, hl, hnew h, hr⟩, ha⟩⟩

mutual

private theorem subtrees_prune (i : String) :
    ∀ c : Component, subtrees (prune i c) ⊆ (subtrees c).map (prune i)
  | .leaf .. => List.Subset.refl _
  | .column _ _ _ cells => List.cons_subset_cons _ (subtreesInCells_pruneCells i cells)
  | .container _ _ children => List.cons_subset_cons _ (subtreesIn_pruneList i children)

/-- What a removal leaves are components of the forest, with the same removal inside them. -/
theorem subtreesIn_pruneList (i : String) :
    ∀ cs : List Component, subtreesIn (pruneList i cs) ⊆ (subtreesIn cs).map (prune i)
  | [] => List.Subset.refl _
  | c :: rest => by
    have hr := subtreesIn_pruneList i rest
    rw [pruneList, subtreesIn, List.map_append]
    split
    · exact List.subset_append_of_subset_right _ hr
    · exact List.append_subset.mpr ⟨List.subset_append_of_subset_left _ (subtrees_prune i c),
        List.subset_append_of_subset_right _ hr⟩

private theorem subtreesInCells_pruneCells (i : String) : ∀ cells : List (List Component),
    subtreesInCells (pruneCells i cells) ⊆ (subtreesInCells cells).map (prune i)
  | [] => List.Subset.refl _
  | cs :: rest => by
    rw [pruneCells, subtreesInCells, subtreesInCells, List.map_append]
    exact List.append_subset.mpr
      ⟨List.subset_append_of_subset_left _ (subtreesIn_pruneList i cs),
        List.subset_append_of_subset_right _ (subtreesInCells_pruneCells i rest)⟩

end

theorem padded_prune {i : String} {c : Component} (h : c.Padded) : (prune i c).Padded := by
  cases c with
  | leaf | container => trivial
  | column j s widths cells =>
    rw [prune, Padded, pruneCells_eq_map, List.length_map]
    exact h

private theorem paddedIn_pruneList {i : String} {cs : List Component} (h : PaddedIn cs) :
    PaddedIn (pruneList i cs) := by
  intro d hd
  obtain ⟨c, hc, rfl⟩ := List.mem_map.mp (subtreesIn_pruneList i cs hd)
  exact padded_prune (h c hc)

mutual

private theorem subtrees_unnamed : ∀ c : Component, subtrees c.unnamed = (subtrees c).map unnamed
  | .leaf .. => rfl
  | .column _ _ _ cells => congrArg (_ :: ·) (subtreesInCells_unnamedCells cells)
  | .container _ _ children => congrArg (_ :: ·) (subtreesIn_unnamedList children)

private theorem subtreesIn_unnamedList :
    ∀ cs : List Component, subtreesIn (unnamedList cs) = (subtreesIn cs).map unnamed
  | [] => rfl
  | c :: rest => by
    rw [unnamedList, subtreesIn, subtreesIn, List.map_append, subtrees_unnamed c,
      subtreesIn_unnamedList rest]

private theorem subtreesInCells_unnamedCells : ∀ cells : List (List Component),
    subtreesInCells (unnamedCells cells) = (subtreesInCells cells).map unnamed
  | [] => rfl
  | cs :: rest => by
    rw [unnamedCells, subtreesInCells, subtreesInCells, List.map_append,
      subtreesIn_unnamedList cs, subtreesInCells_unnamedCells rest]

end

private theorem length_unnamedCells (cells : List (List Component)) :
    (unnamedCells cells).length = cells.length := by
  induction cells with
  | nil => rfl
  | cons cs rest ih => rw [unnamedCells, List.length_cons, List.length_cons, ih]

private theorem padded_unnamed (c : Component) : c.unnamed.Padded ↔ c.Padded := by
  cases c with
  | leaf | container => exact Iff.rfl
  | column i s widths cells => rw [unnamed, Padded, Padded, length_unnamedCells]

private theorem paddedIn_unnamed {c : Component} : PaddedIn [c.unnamed] ↔ PaddedIn [c] := by
  have h := subtreesIn_unnamedList [c]
  rw [unnamedList, unnamedList] at h
  simp only [PaddedIn, h, List.forall_mem_map, padded_unnamed]

private theorem forall_mem_padCells {cells : List (List Component)} (h : ∀ cs ∈ cells, PaddedIn cs)
    (needed : Nat) : ∀ cs ∈ padCells needed cells, PaddedIn cs := by
  refine List.forall_mem_append.mpr ⟨h, fun cs hcs => ?_⟩
  rw [List.eq_of_mem_replicate hcs]
  exact nofun

private theorem paddedIn_adopt? {c p p' : Component} {t : Target} (h : adopt? c t p = some p')
    (hc : PaddedIn [c]) (hp : PaddedIn [p]) : PaddedIn [p'] := by
  have hin : ∀ cs, PaddedIn cs → PaddedIn (insertAt t.index c cs) := fun cs hcs =>
    paddedIn_iff_forall.mpr (forall_mem_insertAt hc (paddedIn_iff_forall.mp hcs) t.index)
  cases adopted_of_adopt? h with
  | @column i s widths left right cells cs hleft hwidth hcells =>
    rw [paddedIn_column] at hp ⊢
    have hlen := length_padCells widths.length cells
    have hmem := forall_mem_padCells hp.2 widths.length
    rw [hcells, List.forall_mem_append, List.forall_mem_cons] at hmem
    obtain ⟨hl, hcs, hr⟩ := hmem
    refine ⟨?_, List.forall_mem_append.mpr ⟨hl, List.forall_mem_cons.mpr ⟨hin cs hcs, hr⟩⟩⟩
    rw [hcells, List.length_append, List.length_cons] at hlen
    rw [List.length_append, List.length_cons, hlen]
    exact Nat.le_max_left _ _
  | container i s children =>
    rw [paddedIn_container] at hp ⊢
    exact hin children hp

private theorem paddedIn_columnRow (i : String) (count : Nat) :
    PaddedIn [Preset.columnRow i count] := by
  rw [Preset.columnRow, paddedIn_column, List.length_replicate, List.length_replicate]
  refine ⟨Nat.le_refl count, fun cs hcs => ?_⟩
  rw [List.eq_of_mem_replicate hcs]
  exact nofun

private theorem paddedIn_build (i : String) (p : Preset) : PaddedIn [p.build i] := by
  cases p with
  | columns count => exact paddedIn_columnRow i _
  | basic kind =>
    cases kind with
    | column => exact paddedIn_columnRow i 2
    | container => exact paddedIn_container.mpr nofun
    | _ => exact paddedIn_leaf _

theorem paddedIn_apply (p : Patch) {c : Component} (h : PaddedIn [c]) :
    PaddedIn [p.apply c] := by
  cases c with
  | leaf => exact paddedIn_leaf _
  | container => exact paddedIn_container.mpr (paddedIn_container.mp h)
  | column i s widths cells =>
    rw [paddedIn_column] at h
    simp only [Patch.apply]
    split
    · next new _ =>
      refine paddedIn_column.mpr ⟨?_, forall_mem_padCells h.2 new.length⟩
      rw [length_padCells]
      exact Nat.le_max_left _ _
    · exact paddedIn_column.mpr h

theorem lasting_paddedIn : Lasting PaddedIn where
  forall_iff := paddedIn_iff_forall
  replaced := fun h _ ht => h.paddedIn ht
  pruned := paddedIn_pruneList
  unnamed := paddedIn_unnamed
  adopted := paddedIn_adopt?
  built := paddedIn_build

/-- Whatever lists a row of columns has, an insertion into it puts the new child into one that is
there, and leaves a list for each width. -/
theorem insert?_column {tree tree' : List Component} {c : Component} {t : Target} {p i : String}
    {s : StyleMap} {widths : List String} {cells : List (List Component)}
    (h : insert? tree c t = some tree') (ht : t.parent = some p)
    (hp : findIn? p tree = some (.column i s widths cells)) :
    ∃ level cells', (t.column.getD 0).toNat < widths.length ∧
      (padCells widths.length cells)[(t.column.getD 0).toNat]? = some level ∧
      cells' = (padCells widths.length cells).set (t.column.getD 0).toNat
        (insertAt t.index c level) ∧
      findIn? p tree' = some (.column i s widths cells') ∧ widths.length ≤ cells'.length := by
  simp only [insert?, ht, hp, adopt?, Option.bind_eq_bind, Option.bind_some] at h
  split at h
  · next hw =>
    have hlevel := getElem?_padCells hw cells
    have hid : (Component.column i s widths cells).id = p := (findIn?_eq_some hp).2
    rw [Option.bind_some] at h
    refine ⟨_, _, hw, hlevel, rfl, ?_, ?_⟩
    · rw [findIn?_modifyIn? h hp hid, List.modify_eq_set, hlevel]
      rfl
    · rw [List.length_set, length_padCells]
      exact Nat.le_max_left _ _
  · simp at h

end MailComposer.Component
