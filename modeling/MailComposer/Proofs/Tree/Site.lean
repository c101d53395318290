import MailComposer.Proofs.Tree.Nodes

/-!
The list that holds an id, found once for all edits among siblings: an edit replaces this list and
keeps what stands around it.
-/
namespace MailComposer.Component

/-- A list of siblings split at one of them, and the whole that has this list in it. -/
structure Site (β : Type) where
  before : List Component
  found : Component
  after : List Component
  around : List Component → β

namespace Site
variable {β γ ρ : Type}

def siblings (s : Site β) : List Component := s.before ++ s.found :: s.after

def within (g : β → γ) (s : Site β) : Site γ where
  before := s.before
  found := s.found
  after := s.after
  around cs := g (s.around cs)

def edit (f : AtSibling ρ) (s : Site β) : ρ × β :=
  let (r, cs) := f s.before s.found s.after
  (r, s.around cs)

/-- The split is at the first sibling with the id, and other siblings show in the nodes of the whole
in place of the old ones. -/
structure Valid (i : String) (nodesOf : β → List Component) (whole : β) (s : Site β) : Prop where
  found_id : s.found.id = i
  before_id : ∀ b ∈ s.before, b.id ≠ i
  around_siblings : s.around s.siblings = whole
  spliced : ∀ cs, Spliced (nodesIn s.siblings) (nodesIn cs) (nodesOf whole) (nodesOf (s.around cs))

theorem Valid.within {i : String} {s : Site β} {nodesOf : β → List Component} {whole : β}
    {nodesOf' : γ → List Component} {g : β → γ} (h : s.Valid i nodesOf whole)
    (hg : ∀ {old new : List Component} {b : β}, Spliced old new (nodesOf whole) (nodesOf b) →
      Spliced old new (nodesOf' (g whole)) (nodesOf' (g b))) :
    (s.within g).Valid i nodesOf' (g whole) where
  found_id := h.found_id
  before_id := h.before_id
  around_siblings := congrArg g h.around_siblings
  spliced cs := hg (h.spliced cs)

end Site

def siteHere? (i : String) (cs : List Component) : Option (Site (List Component)) :=
  match cs.dropWhile (·.id ≠ i) with
  | [] => none
  | c :: after => some ⟨cs.takeWhile (·.id ≠ i), c, after, fun ds => ds⟩

mutual

def siteBelow? (i : String) : Component → Option (Site Component)
  | .leaf .. => none
  | .column j s w cells => (siteBelowCells? i cells).map (Site.within (.column j s w))
  | .container j s children =>
    ((siteHere? i children).or (siteBelowList? i children)).map (Site.within (.container j s))

def siteBelowList? (i : String) : List Component → Option (Site (List Component))
  | [] => none
  | c :: rest =>
    ((siteBelow? i c).map (Site.within (· :: rest))).or
      ((siteBelowList? i rest).map (Site.within (c :: ·)))

def siteBelowCells? (i : String) :
    List (List Component) → Option (Site (List (List Component)))
  | [] => none
  | cs :: rest =>
    (((siteHere? i cs).or (siteBelowList? i cs)).map (Site.within (· :: rest))).or
      ((siteBelowCells? i rest).map (Site.within (cs :: ·)))

end

def site? (i : String) (tree : List Component) : Option (Site (List Component)) :=
  (siteHere? i tree).or (siteBelowList? i tree)

section
variable {ρ : Type} {i : String} {f : AtSibling ρ}

private theorem here?_eq_edit (cs : List Component) :
    here? i f cs = (siteHere? i cs).map (Site.edit f) := by
  unfold here? siteHere?
  cases cs.dropWhile (·.id ≠ i) <;> rfl

mutual

private theorem below?_eq_edit : ∀ c : Component, below? i f c = (siteBelow? i c).map (Site.edit f)
  | .leaf .. => rfl
  | .column _ _ _ cells => by
    rw [below?, siteBelow?, belowCells?_eq_edit cells]
    cases siteBelowCells? i cells <;> rfl
  | .container _ _ children => by
    rw [below?, siteBelow?, here?_eq_edit, belowList?_eq_edit children, ← Option.map_or]
    cases (siteHere? i children).or (siteBelowList? i children) <;> rfl

private theorem belowList?_eq_edit :
    ∀ cs : List Component, belowList? i f cs = (siteBelowList? i cs).map (Site.edit f)
  | [] => rfl
  | c :: rest => by
    rw [belowList?, siteBelowList?, below?_eq_edit c, belowList?_eq_edit rest]
    cases siteBelow? i c with
    | some s => rfl
    | none => cases siteBelowList? i rest <;> rfl

private theorem belowCells?_eq_edit :
    ∀ cells : List (List Component),
      belowCells? i f cells = (siteBelowCells? i cells).map (Site.edit f)
  | [] => rfl
  | cs :: rest => by
    rw [belowCells?, siteBelowCells?, here?_eq_edit, belowList?_eq_edit cs,
      belowCells?_eq_edit rest, ← Option.map_or]
    cases (siteHere? i cs).or (siteBelowList? i cs) with
    | some s => rfl
    | none => cases siteBelowCells? i rest <;> rfl

end

/-- Where an edit among siblings takes place does not depend on the edit. -/
theorem atSibling?_eq_edit (tree : List Component) :
    atSibling? i f tree = (site? i tree).map (Site.edit f) := by
  rw [atSibling?, site?, here?_eq_edit, belowList?_eq_edit, ← Option.map_or]

end

section
variable {i : String}

theorem siteHere?_around {before : List Component} {c : Component} (hb : ∀ b ∈ before, b.id ≠ i)
    (hc : c.id = i) (after : List Component) :
    siteHere? i (before ++ c :: after) = some ⟨before, c, after, fun ds => ds⟩ := by
  have pass : ∀ b ∈ before, decide (b.id ≠ i) = true := fun b hm => decide_eq_true (hb b hm)
  rw [siteHere?, List.dropWhile_append_of_pos pass, List.takeWhile_append_of_pos pass,
    List.dropWhile_cons_of_neg (by simp [hc]), List.takeWhile_cons_of_neg (by simp [hc]),
    List.append_nil]

theorem siteHere?_valid {cs : List Component} {s : Site (List Component)}
    (h : siteHere? i cs = some s) : s.Valid i nodesIn cs := by
  unfold siteHere? at h
  split at h
  · simp at h
  · next c after hd =>
    obtain rfl := Option.some.inj h
    have hc := List.head?_dropWhile_not (fun b : Component => decide (b.id ≠ i)) cs
    rw [hd, List.head?_cons] at hc
    have hcs : cs.takeWhile (·.id ≠ i) ++ c :: after = cs := by
      rw [← hd, List.takeWhile_append_dropWhile]
    refine ⟨by simpa using hc, fun b hb => ?_, hcs, fun ds => ?_⟩
    · simpa using List.all_eq_true.mp List.all_takeWhile b hb
    · simpa only [Site.siblings, hcs] using Spliced.whole (nodesIn cs) (nodesIn ds)

mutual

private theorem siteBelow?_valid :
    ∀ {c : Component} {s : Site Component}, siteBelow? i c = some s → s.Valid i nodes c
  | .leaf .., _, h => by simp [siteBelow?] at h
  | .column .., _, h => by
    obtain ⟨s, hs, rfl⟩ := Option.map_eq_some_iff.mp (by simpa only [siteBelow?] using h)
    exact (siteBelowCells?_valid hs).within (·.cons _)
  | .container .., _, h => by
    obtain ⟨s, hs, rfl⟩ := Option.map_eq_some_iff.mp (by simpa only [siteBelow?] using h)
    rcases Option.or_eq_some_iff.mp hs with hs | ⟨_, hs⟩
    · exact (siteHere?_valid hs).within (·.cons _)
    · exact (siteBelowList?_valid hs).within (·.cons _)

private theorem siteBelowList?_valid :
    ∀ {cs : List Component} {s : Site (List Component)},
      siteBelowList? i cs = some s → s.Valid i nodesIn cs
  | [], _, h => by simp [siteBelowList?] at h
  | c :: rest, _, h => by
    rw [siteBelowList?, Option.or_eq_some_iff] at h
    rcases h with h | ⟨_, h⟩
    · obtain ⟨s, hs, rfl⟩ := Option.map_eq_some_iff.mp h
      exact (siteBelow?_valid hs).within (g := (· :: rest)) (·.append_right _)
    · obtain ⟨s, hs, rfl⟩ := Option.map_eq_some_iff.mp h
      exact (siteBelowList?_valid hs).within (·.append_left _)

private theorem siteBelowCells?_valid :
    ∀ {cells : List (List Component)} {s : Site (List (List Component))},
      siteBelowCells? i cells = some s → s.Valid i nodesInCells cells
  | [], _, h => by simp [siteBelowCells?] at h
  | cs :: rest, _, h => by
    rw [siteBelowCells?, Option.or_eq_some_iff] at h
    rcases h with h | ⟨_, h⟩
    · obtain ⟨s, hs, rfl⟩ := Option.map_eq_some_iff.mp h
      rcases Option.or_eq_some_iff.mp hs with hs | ⟨_, hs⟩
      · exact (siteHere?_valid hs).within (g := (· :: rest)) (·.append_right _)
      · exact (siteBelowList?_valid hs).within (g := (· :: rest)) (·.append_right _)
    · obtain ⟨s, hs, rfl⟩ := Option.map_eq_some_iff.mp h
      exact (siteBelowCells?_valid hs).within (·.append_left _)

end

theorem site?_valid {tree : List Component} {s : Site (List Component)}
    (h : site? i tree = some s) : s.Valid i nodesIn tree := by
  rcases Option.or_eq_some_iff.mp h with h | ⟨_, h⟩
  · exact siteHere?_valid h
  · exact siteBelowList?_valid h

theorem atSibling?_eq_some {ρ : Type} {f : AtSibling ρ} {tree tree' : List Component} {r : ρ}
    (h : atSibling? i f tree = some (r, tree')) :
    ∃ s, site? i tree = some s ∧ s.edit f = (r, tree') := by
  rw [atSibling?_eq_edit] at h
  exact Option.map_eq_some_iff.mp h

end

end MailComposer.Component
