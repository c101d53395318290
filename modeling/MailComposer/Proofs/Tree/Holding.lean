import MailComposer.Proofs.Tree.Replaced

/-!
The list that holds an id, looked up by itself. The search ends at the list where an edit among
siblings takes place, and ends there again when the edit has changed what stands behind the
component.
-/
namespace MailComposer.Component

variable {i : String}

private theorem around_siteHere? {cs : List Component} {s : Site (List Component)}
    (h : siteHere? i cs = some s) : s.around = fun ds => ds := by
  unfold siteHere? at h
  split at h
  · cases h
  · cases h
    rfl

private theorem ownList?_eq_siblings (cs : List Component) :
    ownList? i cs = (siteHere? i cs).map Site.siblings := by
  unfold ownList?
  split
  · next h =>
    obtain ⟨c, hc, hi⟩ := List.any_eq_true.mp h
    cases hs : siteHere? i cs with
    | none => exact absurd (of_decide_eq_true hi) (siteHere?_eq_none_iff.mp hs c hc)
    | some s =>
      have hcs := (siteHere?_valid hs).around_siblings
      rw [around_siteHere? hs] at hcs
      exact congrArg some hcs.symm
  · next h =>
    have hn : siteHere? i cs = none := siteHere?_eq_none_iff.mpr fun c hc hi =>
      h (List.any_eq_true.mpr ⟨c, hc, decide_eq_true hi⟩)
    rw [hn, Option.map_none]

mutual

private theorem listBelow?_eq_siblings :
    ∀ c : Component, listBelow? i c = (siteBelow? i c).map Site.siblings
  | .leaf .. => rfl
  | .column _ _ _ cells => by
    rw [listBelow?, siteBelow?, listBelowCells?_eq_siblings cells, Option.map_map]
    rfl
  | .container _ _ children => by
    rw [listBelow?, siteBelow?, ownList?_eq_siblings, listBelowList?_eq_siblings children,
      ← Option.map_or, Option.map_map]
    rfl

private theorem listBelowList?_eq_siblings :
    ∀ cs : List Component, listBelowList? i cs = (siteBelowList? i cs).map Site.siblings
  | [] => rfl
  | c :: rest => by
    rw [listBelowList?, siteBelowList?, listBelow?_eq_siblings c, listBelowList?_eq_siblings rest,
      Option.map_or, Option.map_map, Option.map_map]
    rfl

private theorem listBelowCells?_eq_siblings : ∀ cells : List (List Component),
    listBelowCells? i cells = (siteBelowCells? i cells).map Site.siblings
  | [] => rfl
  | cs :: rest => by
    rw [listBelowCells?, siteBelowCells?, ownList?_eq_siblings, listBelowList?_eq_siblings cs,
      listBelowCells?_eq_siblings rest, ← Option.map_or, Option.map_or (o := Option.map _ _)]
    simp only [Option.map_map]
    rfl

end

/-- The list that is found is the one in which an edit among siblings takes place. -/
theorem listHolding?_eq_siblings (tree : List Component) :
    listHolding? i tree = (site? i tree).map Site.siblings := by
  rw [listHolding?, site?, ownList?_eq_siblings, listBelowList?_eq_siblings, ← Option.map_or]

/-- The same place with other siblings behind the component. -/
def Site.withAfter {β : Type} (s : Site β) (after : List Component) : Site β := { s with after }

private theorem siteBelow?_id {c : Component} {s : Site Component} (h : siteBelow? i c = some s)
    (new : List Component) : (s.around new).id = c.id := by
  cases c with
  | leaf => cases h
  | column | container =>
    obtain ⟨s, -, rfl⟩ := Option.map_eq_some_iff.mp (by simpa only [siteBelow?] using h)
    rfl

private theorem siteBelowList?_map_id : ∀ {cs : List Component} {s : Site (List Component)},
    siteBelowList? i cs = some s → ∀ new, (s.around new).map id = cs.map id
  | [], _, h, _ => by cases h
  | c :: rest, _, h, new => by
    rw [siteBelowList?, Option.or_eq_some_iff] at h
    rcases h with h | ⟨_, h⟩
    · obtain ⟨s, hs, rfl⟩ := Option.map_eq_some_iff.mp h
      exact congrArg (· :: rest.map id) (siteBelow?_id hs new)
    · obtain ⟨s, hs, rfl⟩ := Option.map_eq_some_iff.mp h
      exact congrArg (c.id :: ·) (siteBelowList?_map_id hs new)

/-- The ids of a list decide whether the search goes on below it. -/
private theorem siteHere?_none_of_map_id {cs ds : List Component} (hid : ds.map id = cs.map id)
    (h : siteHere? i cs = none) : siteHere? i ds = none := by
  rw [siteHere?_eq_none_iff, ← List.forall_mem_map (f := id) (P := (· ≠ i))] at h ⊢
  rwa [hid]

private theorem siteHere?_withAfter {cs : List Component} {s : Site (List Component)}
    (h : siteHere? i cs = some s) (after : List Component) :
    siteHere? i (s.around (s.before ++ s.found :: after)) = some (s.withAfter after) := by
  have hv := siteHere?_valid h
  rw [Site.withAfter, around_siteHere? h]
  exact siteHere?_around hv.before_id hv.found_id after

/-- A list is searched again as it was, if what stands below it is. -/
private theorem site?_withAfter_of {tree : List Component} {s : Site (List Component)}
    {after : List Component}
    (hb : siteBelowList? i tree = some s →
      siteBelowList? i (s.around (s.before ++ s.found :: after)) = some (s.withAfter after))
    (h : site? i tree = some s) :
    site? i (s.around (s.before ++ s.found :: after)) = some (s.withAfter after) := by
  rw [site?]
  rcases Option.or_eq_some_iff.mp h with h | ⟨hn, h⟩
  · rw [siteHere?_withAfter h, Option.some_or]
  · rw [siteHere?_none_of_map_id (siteBelowList?_map_id h _) hn, Option.none_or, hb h]

mutual

private theorem siteBelow?_withAfter :
    ∀ {c : Component} {s : Site Component}, siteBelow? i c = some s →
    ∀ after, siteBelow? i (s.around (s.before ++ s.found :: after)) = some (s.withAfter after)
  | .leaf .., _, h, _ => by cases h
  | .column .., _, h, after => by
    obtain ⟨s, hs, rfl⟩ := Option.map_eq_some_iff.mp (by simpa only [siteBelow?] using h)
    exact congrArg (Option.map _) (siteBelowCells?_withAfter hs after)
  | .container .., _, h, after => by
    obtain ⟨s, hs, rfl⟩ := Option.map_eq_some_iff.mp (by simpa only [siteBelow?] using h)
    exact congrArg (Option.map _) (site?_withAfter_of (siteBelowList?_withAfter · after) hs)

private theorem siteBelowList?_withAfter : ∀ {cs : List Component} {s : Site (List Component)},
    siteBelowList? i cs = some s → ∀ after,
    siteBelowList? i (s.around (s.before ++ s.found :: after)) = some (s.withAfter after)
  | [], _, h, _ => by cases h
  | c :: rest, _, h, after => by
    rw [siteBelowList?, Option.or_eq_some_iff] at h
    rcases h with h | ⟨hc, h⟩
    · obtain ⟨s, hs, rfl⟩ := Option.map_eq_some_iff.mp h
      have hr := siteBelow?_withAfter hs after
      simp only [Site.within, siteBelowList?, hr, Option.map_some, Option.some_or]
      rfl
    · obtain ⟨s, hs, rfl⟩ := Option.map_eq_some_iff.mp h
      have hr := siteBelowList?_withAfter hs after
      have hn := Option.map_eq_none_iff.mp hc
      simp only [Site.within, siteBelowList?, hn, hr, Option.none_or, Option.map_none,
        Option.map_some]
      rfl

private theorem siteBelowCells?_withAfter : ∀ {cells : List (List Component)}
    {s : Site (List (List Component))}, siteBelowCells? i cells = some s → ∀ after,
    siteBelowCells? i (s.around (s.before ++ s.found :: after)) = some (s.withAfter after)
  | [], _, h, _ => by cases h
  | cs :: rest, _, h, after => by
    rw [siteBelowCells?, Option.or_eq_some_iff] at h
    rcases h with h | ⟨hc, h⟩
    · obtain ⟨s, hs, rfl⟩ := Option.map_eq_some_iff.mp h
      have hr := site?_withAfter_of (siteBelowList?_withAfter · after) hs
      rw [site?] at hr
      simp only [Site.within, siteBelowCells?, hr, Option.map_some, Option.some_or]
      rfl
    · obtain ⟨s, hs, rfl⟩ := Option.map_eq_some_iff.mp h
      have hr := siteBelowCells?_withAfter hs after
      have hn := Option.map_eq_none_iff.mp hc
      simp only [Site.within, siteBelowCells?, hn, hr, Option.none_or, Option.map_none,
        Option.map_some]
      rfl

end

/-- What stands behind the component does not lead the search elsewhere. -/
theorem site?_withAfter {tree : List Component} {s : Site (List Component)}
    (h : site? i tree = some s) (after : List Component) :
    site? i (s.around (s.before ++ s.found :: after)) = some (s.withAfter after) :=
  site?_withAfter_of (siteBelowList?_withAfter · after) h

theorem siblingAfter?_of_site? {tree : List Component} {s : Site (List Component)}
    (h : site? i tree = some s) : siblingAfter? tree i = s.after.head?.map Component.id := by
  have hv := site?_valid h
  have pass : ∀ b ∈ s.before, decide (b.id ≠ i) = true := fun b hb =>
    decide_eq_true (hv.before_id b hb)
  have hdrop : s.siblings.dropWhile (·.id ≠ i) = s.found :: s.after := by
    rw [Site.siblings, List.dropWhile_append_of_pos pass,
      List.dropWhile_cons_of_neg (by simp [hv.found_id])]
  rw [siblingAfter?, listHolding?_eq_siblings, h, Option.map_some, Option.bind_eq_bind,
    Option.bind_some, hdrop]
  cases s.after <;> rfl

end MailComposer.Component

namespace MailComposer.Tree
open Component

/-- The sibling that is looked up behind the component is the copy that has been put there. -/
theorem siblingAfter?_duplicate {σ : Type} [IdSource σ] (tree : List Component) (i : String)
    (ids : σ) :
    siblingAfter? (duplicate tree i ids).2.1 i = (duplicate tree i ids).1 := by
  cases h : site? i tree with
  | none => simp [duplicate_of_none h, siblingAfter?, listHolding?_eq_siblings, h]
  | some s =>
    rw [duplicate_of_site h, siblingAfter?_of_site? (site?_withAfter h _)]
    rfl

end MailComposer.Tree
