import MailComposer.Proofs.Tree.Lasting

/-!
Lists of children past the last width of a column stand in no column. Where a forest has no
components in such lists, edits put none there; only a patch with fewer widths does.
-/
namespace MailComposer.Component

mutual

/-- The components that stand in a column or in no row of columns at all, in depth-first order. -/
def visible : Component → List Component
  | .leaf i s l => [.leaf i s l]
  | .column i s w cells => .column i s w cells :: visibleCells w.length cells
  | .container i s children => .container i s children :: visibleIn children

def visibleIn : List Component → List Component
  | [] => []
  | c :: rest => visible c ++ visibleIn rest

def visibleCells : Nat → List (List Component) → List Component
  | _, [] => []
  | 0, _ :: _ => []
  | n + 1, cs :: rest => visibleIn cs ++ visibleCells n rest

end

mutual

/-- Each list of children that is not empty has a width. -/
def fits : Component → Bool
  | .leaf .. => true
  | .column _ _ w cells => fitsCells w.length cells
  | .container _ _ children => fitsIn children

def fitsIn : List Component → Bool
  | [] => true
  | c :: rest => fits c && fitsIn rest

def fitsCells : Nat → List (List Component) → Bool
  | _, [] => true
  | 0, cs :: rest => cs.isEmpty && fitsCells 0 rest
  | n + 1, cs :: rest => fitsIn cs && fitsCells n rest

end

mutual

private theorem visible_sublist : ∀ c : Component, (visible c).Sublist (subtrees c)
  | .leaf .. => .refl _
  | .column _ _ w cells => (visibleCells_sublist w.length cells).cons_cons _
  | .container _ _ children => (visibleIn_sublist children).cons_cons _

theorem visibleIn_sublist : ∀ cs : List Component, (visibleIn cs).Sublist (subtreesIn cs)
  | [] => .refl _
  | c :: rest => (visible_sublist c).append (visibleIn_sublist rest)

private theorem visibleCells_sublist : ∀ (n : Nat) (cells : List (List Component)),
    (visibleCells n cells).Sublist (subtreesInCells cells)
  | _, [] => .refl _
  | 0, _ :: _ => List.nil_sublist _
  | n + 1, cs :: rest => (visibleIn_sublist cs).append (visibleCells_sublist n rest)

end

/-- Two parts of one list that are as long together as the whole leave nothing out. -/
private theorem append_eq_append_iff_of_sublist {α : Type} {as bs xs ys : List α}
    (ha : as.Sublist xs) (hb : bs.Sublist ys) : as ++ bs = xs ++ ys ↔ as = xs ∧ bs = ys := by
  constructor
  · intro h
    have hl := congrArg List.length h
    rw [List.length_append, List.length_append] at hl
    have := ha.length_le
    have := hb.length_le
    exact ⟨ha.eq_of_length (by omega), hb.eq_of_length (by omega)⟩
  · rintro ⟨rfl, rfl⟩
    rfl

mutual

private theorem fits_iff : ∀ c : Component, c.fits = true ↔ visible c = subtrees c
  | .leaf .. => by simp [fits, visible, subtrees]
  | .column _ _ w cells => by
    rw [fits, visible, subtrees, List.cons_inj_right]
    exact fitsCells_iff w.length cells
  | .container _ _ children => by
    rw [fits, visible, subtrees, List.cons_inj_right]
    exact fitsIn_iff children

/-- All components of a forest are visible just where each list of children has a width. -/
theorem fitsIn_iff : ∀ cs : List Component, fitsIn cs = true ↔ visibleIn cs = subtreesIn cs
  | [] => by simp [fitsIn, visibleIn, subtreesIn]
  | c :: rest => by
    rw [fitsIn, Bool.and_eq_true, visibleIn, subtreesIn, fits_iff c, fitsIn_iff rest,
      append_eq_append_iff_of_sublist (visible_sublist c) (visibleIn_sublist rest)]

private theorem fitsCells_iff : ∀ (n : Nat) (cells : List (List Component)),
    fitsCells n cells = true ↔ visibleCells n cells = subtreesInCells cells
  | n, [] => by simp [fitsCells, visibleCells, subtreesInCells]
  | 0, cs :: rest => by
    have hcs : subtreesIn cs = [] ↔ cs = [] := by
      cases cs with
      | nil => simp [subtreesIn]
      | cons c _ => cases c <;> simp [subtreesIn, subtrees]
    have hrest := fitsCells_iff 0 rest
    have hnone : visibleCells 0 rest = [] := by cases rest <;> rfl
    rw [hnone] at hrest
    rw [fitsCells, Bool.and_eq_true, hrest, visibleCells, subtreesInCells, List.isEmpty_iff,
      eq_comm (a := []), eq_comm (a := []), List.append_eq_nil_iff, hcs]
  | n + 1, cs :: rest => by
    rw [fitsCells, Bool.and_eq_true, visibleCells, subtreesInCells, fitsIn_iff cs,
      fitsCells_iff n rest,
      append_eq_append_iff_of_sublist (visibleIn_sublist cs) (visibleCells_sublist n rest)]

end

private theorem fitsIn_iff_forall {cs : List Component} :
    fitsIn cs = true ↔ ∀ c ∈ cs, c.fits = true := by
  induction cs with
  | nil => simp [fitsIn]
  | cons c rest ih => rw [fitsIn, Bool.and_eq_true, ih, List.forall_mem_cons]

@[simp] theorem fitsIn_append {as bs : List Component} :
    fitsIn (as ++ bs) = (fitsIn as && fitsIn bs) := by
  induction as with
  | nil => rfl
  | cons a as ih => rw [List.cons_append, fitsIn, fitsIn, ih, Bool.and_assoc]

/-- A list that has a width, as one that holds something does, leaves it to what takes its place. -/
private theorem fitsCells_replace {cs : List Component} (cs' : List Component)
    (right : List (List Component)) : ∀ {n : Nat} {left : List (List Component)},
      cs ≠ [] ∨ left.length < n → fitsCells n (left ++ cs :: right) = true →
      fitsIn cs = true ∧ (fitsIn cs' = true → fitsCells n (left ++ cs' :: right) = true)
  | 0, [], hw, h => by
    -- Past the last width no list holds anything.
    rw [List.nil_append, fitsCells, Bool.and_eq_true, List.isEmpty_iff] at h
    exact absurd h.1 (hw.resolve_right (Nat.not_lt_zero _))
  | n + 1, [], _, h => by
    rw [List.nil_append, fitsCells, Bool.and_eq_true] at h
    refine ⟨h.1, fun hcs => ?_⟩
    rw [List.nil_append, fitsCells, hcs, h.2, Bool.and_self]
  | 0, l :: left, hw, h => by
    rw [List.cons_append, fitsCells, Bool.and_eq_true] at h
    have hne := hw.resolve_right (Nat.not_lt_zero _)
    obtain ⟨hcs, hr⟩ := fitsCells_replace cs' right (.inl hne) h.2
    refine ⟨hcs, fun hcs' => ?_⟩
    rw [List.cons_append, fitsCells, h.1, hr hcs', Bool.and_self]
  | n + 1, l :: left, hw, h => by
    rw [List.cons_append, fitsCells, Bool.and_eq_true] at h
    obtain ⟨hcs, hr⟩ := fitsCells_replace cs' right (hw.imp_right Nat.lt_of_succ_lt_succ) h.2
    refine ⟨hcs, fun hcs' => ?_⟩
    rw [List.cons_append, fitsCells, h.1, hr hcs', Bool.and_self]

private theorem Replaced.ne_nil {old new tree tree' : List Component}
    (h : Replaced old new tree tree') (hold : old ≠ []) : tree ≠ [] := by
  cases h with
  | here => exact hold
  | container | column => exact around_ne_nil _ _ _

/-- What fits in place of a list that is not empty leaves the forest as it is in that. -/
theorem Replaced.fitsIn {old new tree tree' : List Component} (h : Replaced old new tree tree')
    (hold : old ≠ []) (ht : fitsIn tree = true) :
    fitsIn old = true ∧ (fitsIn new = true → fitsIn tree' = true) := by
  induction h with
  | here => exact ⟨ht, fun h => h⟩
  | @container cs cs' before after i s h ih =>
    simp only [fitsIn_append, Component.fitsIn, fits, Bool.and_eq_true] at ht ⊢
    obtain ⟨ho, hn⟩ := ih ht.2.1
    exact ⟨ho, fun h => ⟨ht.1, hn h, ht.2.2⟩⟩
  | @column cs cs' before after i s widths left right h ih =>
    simp only [fitsIn_append, Component.fitsIn, fits, Bool.and_eq_true] at ht ⊢
    obtain ⟨hcs, hr⟩ := fitsCells_replace cs' right (.inl (h.ne_nil hold)) ht.2.1
    obtain ⟨ho, hn⟩ := ih hcs
    exact ⟨ho, fun h => ⟨ht.1, hr (hn h), ht.2.2⟩⟩

mutual

private theorem fits_unnamed : ∀ c : Component, c.unnamed.fits = c.fits
  | .leaf .. => rfl
  | .column _ _ w cells => fitsCells_unnamedCells w.length cells
  | .container _ _ children => fitsIn_unnamedList children

private theorem fitsIn_unnamedList : ∀ cs : List Component, fitsIn (unnamedList cs) = fitsIn cs
  | [] => rfl
  | c :: rest => by
    rw [unnamedList, fitsIn, fitsIn, fits_unnamed c, fitsIn_unnamedList rest]

private theorem fitsCells_unnamedCells : ∀ (n : Nat) (cells : List (List Component)),
    fitsCells n (unnamedCells cells) = fitsCells n cells
  | n, [] => by simp [unnamedCells, fitsCells]
  | 0, cs :: rest => by
    rw [unnamedCells, fitsCells, fitsCells, fitsCells_unnamedCells 0 rest]
    cases cs <;> rfl
  | n + 1, cs :: rest => by
    rw [unnamedCells, fitsCells, fitsCells, fitsIn_unnamedList cs, fitsCells_unnamedCells n rest]

end

mutual

private theorem fits_prune (i : String) : ∀ {c : Component}, c.fits = true → (prune i c).fits = true
  | .leaf .., _ => rfl
  | .column .., h => fitsCells_pruneCells i h
  | .container .., h => fitsIn_pruneList i h

private theorem fitsIn_pruneList (i : String) :
    ∀ {cs : List Component}, fitsIn cs = true → fitsIn (pruneList i cs) = true
  | [], _ => rfl
  | c :: rest, h => by
    rw [fitsIn, Bool.and_eq_true] at h
    rw [pruneList]
    split
    · exact fitsIn_pruneList i h.2
    · rw [fitsIn, fits_prune i h.1, fitsIn_pruneList i h.2, Bool.and_self]

private theorem fitsCells_pruneCells (i : String) : ∀ {n : Nat} {cells : List (List Component)},
    fitsCells n cells = true → fitsCells n (pruneCells i cells) = true
  | n, [], _ => by simp [pruneCells, fitsCells]
  | 0, cs :: rest, h => by
    rw [fitsCells, Bool.and_eq_true, List.isEmpty_iff] at h
    obtain ⟨rfl, h⟩ := h
    rw [pruneCells, fitsCells, fitsCells_pruneCells i h, pruneList]
    rfl
  | n + 1, cs :: rest, h => by
    rw [fitsCells, Bool.and_eq_true] at h
    rw [pruneCells, fitsCells, fitsIn_pruneList i h.1, fitsCells_pruneCells i h.2, Bool.and_self]

end

private theorem fitsCells_replicate (m n : Nat) : fitsCells n (List.replicate m []) = true := by
  induction m generalizing n with
  | zero => simp [fitsCells]
  | succ m ih => cases n <;> simp [List.replicate_succ, fitsCells, fitsIn, ih]

private theorem fits_build (i : String) (p : Preset) : (p.build i).fits = true := by
  cases p with
  | columns count => exact fitsCells_replicate _ _
  | basic kind =>
    cases kind with
    | column => exact fitsCells_replicate _ _
    | _ => rfl

private theorem fitsCells_append_replicate (m : Nat) :
    ∀ {n : Nat} {cells : List (List Component)}, fitsCells n cells = true →
      fitsCells n (cells ++ List.replicate m []) = true
  | n, [], _ => fitsCells_replicate m n
  | 0, cs :: rest, h => by
    rw [fitsCells, Bool.and_eq_true] at h
    rw [List.cons_append, fitsCells, h.1, fitsCells_append_replicate m h.2, Bool.and_self]
  | n + 1, cs :: rest, h => by
    rw [fitsCells, Bool.and_eq_true] at h
    rw [List.cons_append, fitsCells, h.1, fitsCells_append_replicate m h.2, Bool.and_self]

private theorem fitsIn_insertAt {c : Component} (hc : c.fits = true) {cs : List Component}
    (hcs : fitsIn cs = true) (index : Option UInt64) : fitsIn (insertAt index c cs) = true :=
  fitsIn_iff_forall.mpr (forall_mem_insertAt hc (fitsIn_iff_forall.mp hcs) index)

private theorem fits_adopt? {c p p' : Component} {t : Target} (h : adopt? c t p = some p')
    (hc : c.fits = true) (hp : p.fits = true) : p'.fits = true := by
  cases adopted_of_adopt? h with
  | @column i s widths left right cells cs hleft hwidth hcells =>
    have hpad : fitsCells widths.length (left ++ cs :: right) = true := by
      rw [← hcells]
      exact fitsCells_append_replicate _ hp
    obtain ⟨hcs, hnew⟩ := fitsCells_replace (insertAt t.index c cs) right (.inr hwidth) hpad
    exact hnew (fitsIn_insertAt hc hcs t.index)
  | container i s children => exact fitsIn_insertAt hc hp t.index

@[simp] theorem fitsIn_singleton (c : Component) : fitsIn [c] = c.fits := by
  rw [fitsIn, fitsIn, Bool.and_true]

/-- Edits hide no list of children, but for patches. -/
theorem lasting_fits : Lasting fun tree => fitsIn tree = true where
  forall_iff := by
    intro cs
    simp only [fitsIn_singleton]
    exact fitsIn_iff_forall
  replaced := fun h hne ht => h.fitsIn hne ht
  pruned := fitsIn_pruneList _
  unnamed := by
    intro c
    rw [fitsIn_singleton, fitsIn_singleton, fits_unnamed]
  adopted := by
    intro c t p p' h
    simp only [fitsIn_singleton]
    exact fits_adopt? h
  built := by
    intro i p
    rw [fitsIn_singleton]
    exact fits_build i p

end MailComposer.Component
