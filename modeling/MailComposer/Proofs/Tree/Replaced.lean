import Mathlib.Data.List.TakeWhile
import MailComposer.Proofs.Tree.Edits
import MailComposer.Proofs.Tree.Subtrees

/-!
Edits among siblings, as they show in the forest: one list is replaced by another, and what stands
around it is kept. Where ids are distinct, the list is the one that holds the component with the id.
-/
namespace MailComposer.Component

/-- One list of siblings, anywhere in a forest, is replaced. -/
inductive Replaced (old new : List Component) : List Component → List Component → Prop
  | here : Replaced old new old new
  | container {cs cs' : List Component} (before after : List Component) (i : String)
      (s : StyleMap) (h : Replaced old new cs cs') :
      Replaced old new (before ++ .container i s cs :: after)
        (before ++ .container i s cs' :: after)
  | column {cs cs' : List Component} (before after : List Component) (i : String) (s : StyleMap)
      (widths : List String) (left right : List (List Component)) (h : Replaced old new cs cs') :
      Replaced old new (before ++ .column i s widths (left ++ cs :: right) :: after)
        (before ++ .column i s widths (left ++ cs' :: right) :: after)

theorem Replaced.subset {old new tree tree' : List Component} (h : Replaced old new tree tree') :
    subtreesIn old ⊆ subtreesIn tree := by
  induction h with
  | here => exact List.Subset.refl _
  | container before after i s _ ih =>
    refine List.Subset.trans ih fun c hc => ?_
    simp [subtreesIn, subtrees, hc]
  | column before after i s widths left right _ ih =>
    refine List.Subset.trans ih fun c hc => ?_
    simp [subtreesIn, subtrees, subtreesInCells, hc]

theorem Replaced.symm {old new tree tree' : List Component} (h : Replaced old new tree tree') :
    Replaced new old tree' tree := by
  induction h with
  | here => exact .here
  | container before after i s _ ih => exact .container before after i s ih
  | column before after i s widths left right _ ih =>
    exact .column before after i s widths left right ih

/-- What is replaced in a list that is replaced itself. -/
theorem Replaced.inside {old new inner inner' tree tree' : List Component}
    (h : Replaced old new inner inner') (ht : Replaced inner inner' tree tree') :
    Replaced old new tree tree' := by
  induction ht with
  | here => exact h
  | container before after i s _ ih => exact .container before after i s ih
  | column before after i s widths left right _ ih =>
    exact .column before after i s widths left right ih

/-- What can be replaced by one list can be replaced by any. -/
theorem Replaced.exists_other {old new tree tree' : List Component}
    (h : Replaced old new tree tree') (other : List Component) :
    ∃ tree'', Replaced old other tree tree'' := by
  induction h with
  | here => exact ⟨other, .here⟩
  | container before after i s _ ih =>
    obtain ⟨cs, h⟩ := ih
    exact ⟨_, .container before after i s h⟩
  | column before after i s widths left right _ ih =>
    obtain ⟨cs, h⟩ := ih
    exact ⟨_, .column before after i s widths left right h⟩

/-- A forest with one component left out, and the siblings it has there. -/
structure Place where
  left : List Component
  right : List Component
  around : List Component → List Component
  replaced : ∀ old new, Replaced old new (around old) (around new)

namespace Place

def root (left right : List Component) : Place := ⟨left, right, fun cs => cs, fun _ _ => .here⟩

def container (p : Place) (before after : List Component) (i : String) (s : StyleMap) : Place where
  left := p.left
  right := p.right
  around cs := before ++ .container i s (p.around cs) :: after
  replaced old new := .container before after i s (p.replaced old new)

def column (p : Place) (before after : List Component) (i : String) (s : StyleMap)
    (widths : List String) (left right : List (List Component)) : Place where
  left := p.left
  right := p.right
  around cs := before ++ .column i s widths (left ++ p.around cs :: right) :: after
  replaced old new := .column before after i s widths left right (p.replaced old new)

def put (p : Place) (c : Component) : List Component := p.around (p.left ++ c :: p.right)

theorem replaced_put (p : Place) (c d : Component) :
    Replaced (p.left ++ c :: p.right) (p.left ++ d :: p.right) (p.put c) (p.put d) :=
  p.replaced _ _

end Place

section
variable {i : String}

mutual

private theorem find?_place :
    ∀ {c d : Component}, find? i c = some d → ∀ before after : List Component,
    ∃ p : Place, p.put d = before ++ c :: after ∧
      ∀ f, ∃ c', modify? i f c = some c' ∧ p.put (f d) = before ++ c' :: after
  | .leaf j s l, d, h, before, after => by
    by_cases hj : j = i
    · rw [find?, if_pos hj, Option.some.injEq] at h
      subst h
      exact ⟨.root before after, rfl, fun f => ⟨_, by rw [modify?, if_pos hj], rfl⟩⟩
    · simp [find?, hj] at h
  | .column j s w cells, d, h, before, after => by
    by_cases hj : j = i
    · rw [find?, if_pos hj, Option.some.injEq] at h
      subst h
      exact ⟨.root before after, rfl, fun f => ⟨_, by rw [modify?, if_pos hj], rfl⟩⟩
    · rw [find?, if_neg hj] at h
      obtain ⟨p, hp, hf⟩ := findInCells?_place h before after j s w []
      refine ⟨p, hp, fun f => ?_⟩
      obtain ⟨cells', hm, hput⟩ := hf f
      exact ⟨.column j s w cells', by rw [modify?, if_neg hj, hm, Option.map_some], hput⟩
  | .container j s children, d, h, before, after => by
    by_cases hj : j = i
    · rw [find?, if_pos hj, Option.some.injEq] at h
      subst h
      exact ⟨.root before after, rfl, fun f => ⟨_, by rw [modify?, if_pos hj], rfl⟩⟩
    · rw [find?, if_neg hj] at h
      obtain ⟨p, hp, hf⟩ := findIn?_place h []
      refine ⟨p.container before after j s,
        congrArg (fun cs => before ++ .container j s cs :: after) hp, fun f => ?_⟩
      obtain ⟨children', hm, hput⟩ := hf f
      exact ⟨.container j s children', by rw [modify?, if_neg hj, hm, Option.map_some],
        congrArg (fun cs => before ++ .container j s cs :: after) hput⟩

/-- Where an edit of the component that a search finds takes place does not depend on the edit. -/
theorem findIn?_place : ∀ {cs : List Component} {d : Component}, findIn? i cs = some d →
    ∀ before : List Component, ∃ p : Place, p.put d = before ++ cs ∧
      ∀ f, ∃ cs', modifyIn? i f cs = some cs' ∧ p.put (f d) = before ++ cs'
  | c :: rest, d, h, before => by
    rcases Option.or_eq_some_iff.mp h with h | ⟨hc, h⟩
    · obtain ⟨p, hp, hf⟩ := find?_place h before rest
      refine ⟨p, hp, fun f => ?_⟩
      obtain ⟨c', hm, hput⟩ := hf f
      exact ⟨_, by rw [modifyIn?, hm], hput⟩
    · -- What the search has passed joins the siblings before.
      obtain ⟨p, hp, hf⟩ := findIn?_place h (before ++ [c])
      rw [List.append_assoc] at hp
      refine ⟨p, hp, fun f => ?_⟩
      obtain ⟨rest', hm, hput⟩ := hf f
      rw [List.append_assoc] at hput
      exact ⟨c :: rest', by rw [modifyIn?, (modify?_eq_none c).mpr hc, hm]; rfl, hput⟩

private theorem findInCells?_place : ∀ {cells : List (List Component)} {d : Component},
    findInCells? i cells = some d → ∀ (before after : List Component) (j : String) (s : StyleMap)
      (w : List String) (outer : List (List Component)),
      ∃ p : Place, p.put d = before ++ .column j s w (outer ++ cells) :: after ∧
        ∀ f, ∃ cells', modifyInCells? i f cells = some cells' ∧
          p.put (f d) = before ++ .column j s w (outer ++ cells') :: after
  | cs :: rest, d, h, before, after, j, s, w, outer => by
    rcases Option.or_eq_some_iff.mp h with h | ⟨hc, h⟩
    · obtain ⟨p, hp, hf⟩ := findIn?_place h []
      refine ⟨p.column before after j s w outer rest,
        congrArg (fun cs => before ++ .column j s w (outer ++ cs :: rest) :: after) hp, fun f => ?_⟩
      obtain ⟨cs', hm, hput⟩ := hf f
      exact ⟨cs' :: rest, by rw [modifyInCells?, hm],
        congrArg (fun cs => before ++ .column j s w (outer ++ cs :: rest) :: after) hput⟩
    · obtain ⟨p, hp, hf⟩ := findInCells?_place h before after j s w (outer ++ [cs])
      rw [List.append_assoc] at hp
      refine ⟨p, hp, fun f => ?_⟩
      obtain ⟨rest', hm, hput⟩ := hf f
      rw [List.append_assoc] at hput
      exact ⟨cs :: rest', by rw [modifyInCells?, (modifyIn?_eq_none cs).mpr hc, hm]; rfl, hput⟩

end

/-- The place of the component that a search finds, and what is there after an edit. -/
theorem modifyIn?_place {tree : List Component} {d : Component} (h : findIn? i tree = some d) :
    ∃ p : Place, p.put d = tree ∧ ∀ f, modifyIn? i f tree = some (p.put (f d)) := by
  obtain ⟨p, hp, hf⟩ := findIn?_place h []
  refine ⟨p, hp, fun f => ?_⟩
  obtain ⟨tree', hm, hput⟩ := hf f
  rw [hm, hput, List.nil_append]

/-- A component that is put in place of the one that a search finds. -/
theorem modifyIn?_put {tree tree' : List Component} {d d' : Component}
    (hd : findIn? i tree = some d) (h : modifyIn? i (fun _ => d') tree = some tree') :
    ∃ p : Place, p.put d = tree ∧ p.put d' = tree' ∧
      ∀ f, modifyIn? i f tree = some (p.put (f d)) := by
  obtain ⟨p, hp, hput⟩ := modifyIn?_place hd
  exact ⟨p, hp, Option.some.inj ((hput _).symm.trans h), hput⟩

/-- An edit of the component that a search finds is one of the list that it stands in. -/
theorem modifyIn?_replaced {f : Component → Component} {tree tree' : List Component}
    (h : modifyIn? i f tree = some tree') : ∃ d left right, findIn? i tree = some d ∧
      Replaced (left ++ d :: right) (left ++ f d :: right) tree tree' := by
  cases hd : findIn? i tree with
  | none =>
    rw [(modifyIn?_eq_none tree).mpr hd] at h
    cases h
  | some d =>
    obtain ⟨p, hp, hf⟩ := modifyIn?_place hd
    obtain rfl := Option.some.inj ((hf f).symm.trans h)
    refine ⟨d, p.left, p.right, rfl, ?_⟩
    have hr := p.replaced_put d (f d)
    rwa [hp] at hr

end

section
variable {i : String}

private theorem siteHere?_replaced {cs : List Component} {s : Site (List Component)}
    (h : siteHere? i cs = some s) (new : List Component) :
    Replaced s.siblings new cs (s.around new) := by
  have hv := siteHere?_valid h
  unfold siteHere? at h
  split at h
  · simp at h
  · obtain rfl := Option.some.inj h
    have hs := hv.around_siblings
    dsimp only at hs
    rw [hs]
    exact .here

mutual

private theorem siteBelow?_replaced :
    ∀ {c : Component} {s : Site Component}, siteBelow? i c = some s →
    ∀ new before after : List Component,
      Replaced s.siblings new (before ++ c :: after) (before ++ s.around new :: after)
  | .leaf .., _, h, _, _, _ => by simp [siteBelow?] at h
  | .column .., _, h, new, before, after => by
    obtain ⟨s, hs, rfl⟩ := Option.map_eq_some_iff.mp (by simpa only [siteBelow?] using h)
    exact siteBelowCells?_replaced hs new before after _ _ _ []
  | .container .., _, h, new, before, after => by
    obtain ⟨s, hs, rfl⟩ := Option.map_eq_some_iff.mp (by simpa only [siteBelow?] using h)
    rcases Option.or_eq_some_iff.mp hs with hs | ⟨_, hs⟩
    · exact .container before after _ _ (siteHere?_replaced hs new)
    · exact .container before after _ _ (siteBelowList?_replaced hs new [])

private theorem siteBelowList?_replaced : ∀ {cs : List Component} {s : Site (List Component)},
    siteBelowList? i cs = some s →
    ∀ new before : List Component, Replaced s.siblings new (before ++ cs) (before ++ s.around new)
  | [], _, h, _, _ => by simp [siteBelowList?] at h
  | c :: rest, _, h, new, before => by
    rw [siteBelowList?, Option.or_eq_some_iff] at h
    rcases h with h | ⟨_, h⟩
    · obtain ⟨s, hs, rfl⟩ := Option.map_eq_some_iff.mp h
      exact siteBelow?_replaced hs new before rest
    · obtain ⟨s, hs, rfl⟩ := Option.map_eq_some_iff.mp h
      have hr := siteBelowList?_replaced hs new (before ++ [c])
      rw [List.append_assoc, List.append_assoc] at hr
      exact hr

private theorem siteBelowCells?_replaced : ∀ {cells : List (List Component)}
    {s : Site (List (List Component))}, siteBelowCells? i cells = some s →
    ∀ (new before after : List Component) (j : String) (styles : StyleMap) (widths : List String)
      (left : List (List Component)),
      Replaced s.siblings new (before ++ .column j styles widths (left ++ cells) :: after)
        (before ++ .column j styles widths (left ++ s.around new) :: after)
  | [], _, h, _, _, _, _, _, _, _ => by simp [siteBelowCells?] at h
  | cs :: rest, _, h, new, before, after, j, styles, widths, left => by
    rw [siteBelowCells?, Option.or_eq_some_iff] at h
    rcases h with h | ⟨_, h⟩
    · obtain ⟨s, hs, rfl⟩ := Option.map_eq_some_iff.mp h
      rcases Option.or_eq_some_iff.mp hs with hs | ⟨_, hs⟩
      · exact .column before after j styles widths left rest (siteHere?_replaced hs new)
      · exact .column before after j styles widths left rest (siteBelowList?_replaced hs new [])
    · obtain ⟨s, hs, rfl⟩ := Option.map_eq_some_iff.mp h
      have hr := siteBelowCells?_replaced hs new before after j styles widths (left ++ [cs])
      rw [List.append_assoc, List.append_assoc] at hr
      exact hr

end

theorem site?_replaced {tree : List Component} {s : Site (List Component)}
    (h : site? i tree = some s) (new : List Component) :
    Replaced s.siblings new tree (s.around new) := by
  rcases Option.or_eq_some_iff.mp h with h | ⟨_, h⟩
  · exact siteHere?_replaced h new
  · exact siteBelowList?_replaced h new []

theorem siteHere?_eq_none_iff {cs : List Component} :
    siteHere? i cs = none ↔ ∀ c ∈ cs, c.id ≠ i := by
  have hd := List.dropWhile_eq_nil_iff (p := fun c : Component => decide (c.id ≠ i)) (l := cs)
  simp only [decide_eq_true_eq] at hd
  rw [← hd, siteHere?]
  cases cs.dropWhile fun c => decide (c.id ≠ i) with
  | nil => exact iff_of_true rfl rfl
  | cons c after => exact iff_of_false (Option.some_ne_none _) (List.cons_ne_nil c after)

mutual

private theorem siteBelow?_eq_none : ∀ {c : Component}, siteBelow? i c = none →
    ∀ d ∈ subtrees c, d.id = i → d = c
  | .leaf .., _, d, hd, _ => List.mem_singleton.mp hd
  | .column .., h, d, hd, hi => by
    rcases List.mem_cons.mp hd with hd | hd
    · exact hd
    · simp only [siteBelow?, Option.map_eq_none_iff] at h
      exact absurd hi (siteBelowCells?_eq_none h d hd)
  | .container .., h, d, hd, hi => by
    rcases List.mem_cons.mp hd with hd | hd
    · exact hd
    · simp only [siteBelow?, Option.map_eq_none_iff, Option.or_eq_none_iff] at h
      exact absurd hi (siteBelowList?_eq_none h.2 (siteHere?_eq_none_iff.mp h.1) d hd)

private theorem siteBelowList?_eq_none : ∀ {cs : List Component}, siteBelowList? i cs = none →
    (∀ c ∈ cs, c.id ≠ i) → ∀ d ∈ subtreesIn cs, d.id ≠ i
  | [], _, _, _, hd => nomatch hd
  | c :: rest, h, hc, d, hd => by
    simp only [siteBelowList?, Option.or_eq_none_iff, Option.map_eq_none_iff] at h
    rcases List.mem_append.mp hd with hd | hd
    · intro hi
      exact hc c List.mem_cons_self (siteBelow?_eq_none h.1 d hd hi ▸ hi)
    · exact siteBelowList?_eq_none h.2 (fun c hr => hc c (List.mem_cons_of_mem _ hr)) d hd

private theorem siteBelowCells?_eq_none : ∀ {cells : List (List Component)},
    siteBelowCells? i cells = none → ∀ d ∈ subtreesInCells cells, d.id ≠ i
  | [], _, _, hd => nomatch hd
  | cs :: rest, h, d, hd => by
    simp only [siteBelowCells?, Option.or_eq_none_iff, Option.map_eq_none_iff] at h
    obtain ⟨⟨hh, hl⟩, hr⟩ := h
    rcases List.mem_append.mp hd with hd | hd
    · exact siteBelowList?_eq_none hl (siteHere?_eq_none_iff.mp hh) d hd
    · exact siteBelowCells?_eq_none hr d hd

end

theorem site?_found_mem {tree : List Component} {s : Site (List Component)}
    (h : site? i tree = some s) : s.found ∈ subtreesIn tree := by
  have hs : s.found ∈ s.siblings := List.mem_append_right _ List.mem_cons_self
  exact (site?_replaced h []).subset (subset_subtreesIn _ hs)

/-- A list is found for just those ids that stand in the forest. -/
theorem site?_eq_none_iff {tree : List Component} : site? i tree = none ↔ i ∉ idsIn tree := by
  constructor
  · intro h hi
    obtain ⟨d, hd, hid⟩ := mem_idsIn.mp hi
    obtain ⟨hh, hl⟩ := Option.or_eq_none_iff.mp h
    exact siteBelowList?_eq_none hl (siteHere?_eq_none_iff.mp hh) d hd hid
  · intro hi
    cases h : site? i tree with
    | none => rfl
    | some s => exact absurd (mem_idsIn.mpr ⟨s.found, site?_found_mem h, (site?_valid h).found_id⟩) hi

/-- Where ids are distinct, the search for a list and that for a component meet. -/
theorem site?_of_findIn? {tree : List Component} {c : Component} (hn : (idsIn tree).Nodup)
    (h : findIn? i tree = some c) : ∃ s, site? i tree = some s ∧ s.found = c := by
  obtain ⟨hc, hi⟩ := findIn?_eq_some h
  cases hs : site? i tree with
  | none => exact absurd (mem_idsIn.mpr ⟨c, hc, hi⟩) (site?_eq_none_iff.mp hs)
  | some s =>
    have hfound := findIn?_of_mem hn (site?_found_mem hs)
    rw [(site?_valid hs).found_id, h] at hfound
    exact ⟨s, rfl, (Option.some.inj hfound).symm⟩

end

end MailComposer.Component
