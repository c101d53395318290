import MailComposer.Html.Document
import MailComposer.Proofs.Html.Injection
import MailComposer.Proofs.Tree.Replaced

/-!
The styles that an editor shows beside those that are compiled. A value is looked up for one
property at a time in the one case, and all are laid over the defaults at once in the other; both
give the same, and nothing else of the styles shows in a document.
-/
namespace MailComposer

/-- No kind has an empty style of itself. -/
theorem Kind.default_ne_empty (k : Kind) {p : Property} {v : String}
    (h : k.defaultStyles.get? p = some v) : v ≠ "" := by
  have all : ∀ e ∈ k.defaultStyles.known.entries, e.2 ≠ "" := by cases k <;> decide
  exact all (p, v) (Dictionary.get?_eq_some_iff.mp h)

namespace Component

private theorem get?_resolved (c : Component) (p : Property) :
    c.resolved.get? p = (c.styles.nonEmpty? p).or (c.kind.defaultStyles.get? p) := by
  have merged := Dictionary.get?_insertAll c.kind.defaultStyles.known c.styles.filled.known p
  have filled := Dictionary.get?_filter c.styles.known (fun v => decide (v ≠ "")) p
  exact merged.trans (congrArg (·.or (c.kind.defaultStyles.get? p)) filled)

/-- What is compiled for a property is what the editor shows for it. -/
theorem get?_resolved_eq_effective (c : Component) (p : Property) :
    c.resolved.get? p = if c.effective p = "" then none else some (c.effective p) := by
  rw [get?_resolved, effective]
  cases hs : c.styles.nonEmpty? p with
  | some v =>
    have hv : v ≠ "" := StyleMap.nonEmpty?_ne_empty hs
    rw [if_neg hv]
    rfl
  | none =>
    cases hd : c.kind.defaultStyles.get? p with
    | none => rfl
    | some v =>
      have hv : v ≠ "" := c.kind.default_ne_empty hd
      exact (if_neg hv).symm

/-- What a component is apart from its id and its own styles. -/
def content (c : Component) : Component := (c.withId "").withStyles .empty

/-- Two components with the same content for which an editor shows the same. -/
structure LooksLike (a b : Component) : Prop where
  content : a.content = b.content
  effective : ∀ p, a.effective p = b.effective p
  extras : a.styles.filled.extras = b.styles.filled.extras

private theorem looksLike_iff_resolved {a b : Component} :
    LooksLike a b ↔ a.content = b.content ∧ a.resolved = b.resolved := by
  constructor
  · intro h
    refine ⟨h.content, StyleMap.ext_parts (Dictionary.ext_get? fun p => ?_) ?_⟩
    · have ha := a.get?_resolved_eq_effective p
      rw [h.effective p, ← b.get?_resolved_eq_effective p] at ha
      exact ha
    · rw [Html.extras_resolved, Html.extras_resolved, h.extras]
  · rintro ⟨hc, hr⟩
    have shown (c : Component) (p : Property) : c.effective p = (c.resolved.get? p).getD "" := by
      rw [get?_resolved_eq_effective]
      split
      · next he => exact he
      · rfl
    refine ⟨hc, fun p => ?_, ?_⟩
    · rw [shown, shown, hr]
    · rw [← Html.extras_resolved, ← Html.extras_resolved, hr]

private theorem content_withStyles (c : Component) (s : StyleMap) :
    (c.withStyles s).content = c.content := by cases c <;> rfl

private theorem resolved_withStyles (c : Component) (s : StyleMap) :
    (c.withStyles s).resolved = c.kind.defaultStyles.merge s.filled := by cases c <;> rfl

/-- Overrides with the empty text are as good as none. -/
theorem looksLike_filled (c : Component) : LooksLike c (c.withStyles c.styles.filled) := by
  refine looksLike_iff_resolved.mpr ⟨(c.content_withStyles _).symm, ?_⟩
  rw [resolved_withStyles, StyleMap.filled_filled]
  rfl

/-- All styles that count can be written out. -/
theorem looksLike_resolved (c : Component) : LooksLike c (c.withStyles c.resolved) := by
  refine looksLike_iff_resolved.mpr ⟨(c.content_withStyles _).symm, ?_⟩
  rw [resolved_withStyles]
  exact (StyleMap.merge_filled_merge c.kind.defaultStyles c.styles).symm

private theorem looksLike_defaults (c : Component) :
    LooksLike (c.withStyles .empty) (c.withStyles c.kind.defaultStyles) := by
  have written := StyleMap.merge_filled_merge c.kind.defaultStyles .empty
  refine looksLike_iff_resolved.mpr ⟨by rw [content_withStyles, content_withStyles], ?_⟩
  rw [resolved_withStyles, resolved_withStyles, ← written, StyleMap.merge_filled_empty]

end Component

namespace Html
open Component (LooksLike Replaced)

private theorem fragmentList_eq_flatMap (depth : Nat) (cs : List Component) :
    fragmentList depth cs = cs.flatMap (fragment depth) := by
  induction cs with
  | nil => rfl
  | cons c rest ih => rw [fragmentList, ih, List.flatMap_cons]

private theorem fragmentCells_eq_map (depth : Nat) (cells : List (List Component)) :
    fragmentCells depth cells = cells.map (fragmentList depth) := by
  induction cells with
  | nil => rfl
  | cons cs rest ih => rw [fragmentCells, ih, List.map_cons]

private theorem fragment_congr {a b : Component} (hc : a.content = b.content)
    (hr : a.resolved = b.resolved) (depth : Nat) : fragment depth a = fragment depth b := by
  cases a with
  | leaf i s l =>
    cases b with
    | leaf i' s' l' =>
      obtain rfl : l = l' := (Component.leaf.inj hc).2.2
      exact congrArg (leaf depth · l) hr
    | column | container => cases hc
  | column i s widths cells =>
    cases b with
    | column i' s' widths' cells' =>
      obtain ⟨-, -, rfl, rfl⟩ := Component.column.inj hc
      exact congrArg (columns depth · widths (fragmentCells (depth + 3) cells)) hr
    | leaf | container => cases hc
  | container i s children =>
    cases b with
    | container i' s' children' =>
      obtain rfl : children = children' := (Component.container.inj hc).2.2
      exact congrArg (container depth · (fragmentList (depth + 1) children)) hr
    | leaf | column => cases hc

/-- Lists that write the same do so wherever they stand. -/
theorem fragmentList_replaced {old new tree tree' : List Component}
    (h : Replaced old new tree tree')
    (hs : ∀ depth, fragmentList depth old = fragmentList depth new) (depth : Nat) :
    fragmentList depth tree = fragmentList depth tree' := by
  induction h generalizing depth with
  | here => exact hs depth
  | @container cs cs' before after i s _ ih =>
    have inner : fragment depth (.container i s cs) = fragment depth (.container i s cs') :=
      congrArg (container depth _) (ih (depth + 1))
    simp only [fragmentList_eq_flatMap, List.flatMap_append, List.flatMap_cons, inner]
  | @column cs cs' before after i s widths left right _ ih =>
    have cells : fragmentCells (depth + 3) (left ++ cs :: right) =
        fragmentCells (depth + 3) (left ++ cs' :: right) := by
      simp only [fragmentCells_eq_map, List.map_append, List.map_cons, ih]
    have inner : fragment depth (.column i s widths (left ++ cs :: right)) =
        fragment depth (.column i s widths (left ++ cs' :: right)) :=
      congrArg (columns depth _ widths) cells
    simp only [fragmentList_eq_flatMap, List.flatMap_append, List.flatMap_cons, inner]

/-- In the place of a component, one that looks like it is compiled to the same. -/
theorem compile_of_looksLike {a b : Component} (h : LooksLike a b)
    {before after tree tree' : List Component}
    (hr : Replaced (before ++ a :: after) (before ++ b :: after) tree tree') (canvas : Canvas)
    (o : Options) : compile tree canvas o = compile tree' canvas o := by
  obtain ⟨hc, hs⟩ := Component.looksLike_iff_resolved.mp h
  have siblings : ∀ depth, fragmentList depth (before ++ a :: after) =
      fragmentList depth (before ++ b :: after) := by
    intro depth
    have inner := fragment_congr hc hs depth
    simp only [fragmentList_eq_flatMap, List.flatMap_append, List.flatMap_cons, inner]
  rw [compile, compile, document, document, fragmentList_replaced hr siblings]

/-- The value compiled for a property is the one that the editor shows, and none where that is
empty; the styles outside the vocabulary are those of the component that are not empty. Nothing else
of the styles counts: in any place of any document, components that look alike are compiled to the
same. Overrides that are empty, and defaults and other values that are written out although they
count anyway, do not show. -/
theorem compile_shows_effective :
    (∀ (c : Component) (p : Property),
      c.resolved.get? p = if c.effective p = "" then none else some (c.effective p)) ∧
    (∀ c : Component,
      c.resolved.extras.entries = c.styles.extras.entries.filter fun e => decide (e.2 ≠ "")) ∧
    (∀ (a b : Component) (before after tree tree' : List Component), LooksLike a b →
      Replaced (before ++ a :: after) (before ++ b :: after) tree tree' →
      ∀ (canvas : Canvas) (o : Options), compile tree canvas o = compile tree' canvas o) ∧
    ∀ c : Component, LooksLike c (c.withStyles c.styles.filled) ∧
      LooksLike c (c.withStyles c.resolved) ∧
      LooksLike (c.withStyles .empty) (c.withStyles c.kind.defaultStyles) := by
  refine ⟨Component.get?_resolved_eq_effective, fun c => ?_, ?_, fun c => ?_⟩
  · exact congrArg Dictionary.entries (extras_resolved c)
  · intro a b before after tree tree' h hr
    exact compile_of_looksLike h hr
  · exact ⟨c.looksLike_filled, c.looksLike_resolved, c.looksLike_defaults⟩

/-- A button with an empty override and a style from outside the vocabulary. -/
def shadedButton : Component :=
  .leaf "b" ((StyleMap.empty.set .color "").setKey "boxSizing" "border-box") (.button "Go" "/go")

theorem compile_shows_effective_shadedButton :
    let plain := shadedButton.withStyles shadedButton.styles.filled
    let row (c : Component) : List Component :=
      [.column "row" .empty ["100%"] [[.leaf "t" .empty (.text "Hi"), c]]]
    LooksLike shadedButton plain ∧
      Replaced ([.leaf "t" .empty (.text "Hi")] ++ shadedButton :: [])
        ([.leaf "t" .empty (.text "Hi")] ++ plain :: []) (row shadedButton) (row plain) ∧
      shadedButton ≠ plain ∧ shadedButton.resolved.get? .color = some "#ffffff" ∧
      compile (row shadedButton) .default {} = compile (row plain) .default {} := by
  intro plain row
  have h : LooksLike shadedButton plain := shadedButton.looksLike_filled
  have hr : Replaced ([.leaf "t" .empty (.text "Hi")] ++ shadedButton :: [])
      ([.leaf "t" .empty (.text "Hi")] ++ plain :: []) (row shadedButton) (row plain) :=
    .column [] [] "row" .empty ["100%"] [] [] .here
  obtain ⟨hshown, -, hcompile, -⟩ := compile_shows_effective
  refine ⟨h, hr, by decide, ?_, hcompile _ _ _ _ _ _ h hr .default {}⟩
  rw [hshown]
  rfl

end Html

end MailComposer
