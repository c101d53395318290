import MailComposer.Proofs.Html.Inert

/-!
What of a document's data can be taken for markup. Main statement: all of it is inert, but for the
names of styles outside the vocabulary, which go out as they are written.
-/
namespace MailComposer.Component

mutual

/-- The components that are compiled, each without its children; lists past the last width of a
column are not. -/
def compiled : Component → List Component
  | .leaf i s l => [.leaf i s l]
  | .column i s w cells => .column i s w [] :: compiledCells w.length cells
  | .container i s children => .container i s [] :: compiledIn children

def compiledIn : List Component → List Component
  | [] => []
  | c :: rest => compiled c ++ compiledIn rest

def compiledCells : Nat → List (List Component) → List Component
  | _, [] => []
  | 0, _ :: _ => []
  | n + 1, cs :: rest => compiledIn cs ++ compiledCells n rest

end

end MailComposer.Component

namespace MailComposer.Html
open Component (compiled compiledIn compiledCells)

def CleanLines (ls : List SpanLine) : Prop := ∀ l ∈ ls, Clean l.spans

@[simp] theorem cleanLines_nil : CleanLines [] := fun _ h => nomatch h

@[simp] theorem cleanLines_cons {l : SpanLine} {ls : List SpanLine} :
    CleanLines (l :: ls) ↔ Clean l.spans ∧ CleanLines ls :=
  List.forall_mem_cons

@[simp] theorem cleanLines_append {ls ks : List SpanLine} :
    CleanLines (ls ++ ks) ↔ CleanLines ls ∧ CleanLines ks :=
  List.forall_mem_append

@[simp] theorem cleanLines_spanBlock {depth : Nat} {opening closing : List Span}
    {body : List SpanLine} :
    CleanLines (spanBlock depth opening closing body) ↔
      Clean opening ∧ CleanLines body ∧ Clean closing := by
  simp [spanBlock]

theorem extras_imageStyles (s : StyleMap) : (imageStyles s).extras = s.extras := by
  unfold imageStyles
  dsimp only
  split <;> rfl

theorem extras_listStyles (s : StyleMap) (kind : ListKind) :
    (listStyles s kind).extras = s.extras := by
  unfold listStyles
  split <;> rfl

theorem extras_ofList (es : List (Property × String)) : (StyleMap.ofList es).extras = .empty := by
  have kept (s : StyleMap) :
      (es.foldl (fun s e => s.set e.1 e.2) s).extras = s.extras := by
    induction es generalizing s with
    | nil => rfl
    | cons e es ih => exact ih _
  exact kept .empty

theorem inertExtras_imageWrapper (s : StyleMap) : InertExtras (imageWrapper s) := by
  rw [InertExtras, imageWrapper, extras_ofList]
  exact List.forall_mem_nil _

private theorem cleanLines_leafSpans (depth : Nat) (s : StyleMap) (l : Leaf) :
    CleanLines (leafSpans depth s l) ↔ InertExtras s := by
  cases l with
  | text content => simp [leafSpans, paragraphSpans, clean_declarations]
  | heading content level =>
    have digit : Inert (Leaf.clampLevel level).toNat.repr := inert_digits _
    simp [leafSpans, headingSpans, clean_declarations, digit]
  | image src alt =>
    have own := inertExtras_congr (extras_imageStyles s)
    simp [leafSpans, imageSpans, clean_declarations, inertExtras_imageWrapper, own]
  | button label href =>
    have alignment : Clean (styledSpans [("text-align", buttonAlignment s)]) :=
      clean_named ["text-align"] (by decide) rfl
    have own : InertExtras (s.erase .textAlign) ↔ InertExtras s := inertExtras_congr rfl
    simp [leafSpans, buttonSpans, clean_declarations, alignment, own]
  | divider => simp [leafSpans, dividerSpans, clean_declarations]
  | spacer height =>
    have own (h : String) : InertExtras ((s.set .height h).set .lineHeight h) ↔ InertExtras s :=
      inertExtras_congr rfl
    simp [leafSpans, spacerSpans, clean_declarations, own]
  | list kind items =>
    have tags : Clean [listOpening kind] ∧ Clean [listClosing kind] := by
      cases kind <;> simp [listOpening, listClosing]
    have entries : CleanLines (items.map fun item =>
        ⟨depth + 1, [.markup .item, .escaped item, .markup .itemEnd]⟩) := by
      intro l hl
      obtain ⟨item, -, rfl⟩ := List.mem_map.mp hl
      simp
    have own := inertExtras_congr (extras_listStyles s kind)
    simp [leafSpans, listSpans, clean_declarations, tags, entries, own]

theorem clean_cellStyles (width : String) :
    Clean (styledSpans [("width", width), ("vertical-align", "top")]) :=
  clean_named ["width", "vertical-align"] (by decide) rfl

private theorem clean_cellSpans (width : String) : Clean (cellSpans width) := by
  simp [cellSpans, clean_widthSpans, clean_cellStyles]

/-- Lists past the last width are not in the document. -/
private theorem cleanLines_cellsSpans (depth : Nat) (widths : List String)
    (contents : List (List SpanLine)) :
    CleanLines (cellsSpans depth widths contents) ↔
      ∀ ls ∈ contents.take widths.length, CleanLines ls := by
  induction widths generalizing contents with
  | nil => simp [cellsSpans]
  | cons width widths ih =>
    rw [cellsSpans, cleanLines_append, cleanLines_spanBlock, ih]
    cases contents with
    | nil => simp [clean_cellSpans]
    | cons ls contents => simp [clean_cellSpans]

private theorem cleanLines_columnsSpans (depth : Nat) (s : StyleMap) (widths : List String)
    (contents : List (List SpanLine)) :
    CleanLines (columnsSpans depth s widths contents) ↔
      InertExtras s ∧ ∀ ls ∈ contents.take widths.length, CleanLines ls := by
  have gap : Inert (columnGap s).repr := inert_digits _
  have own : InertExtras (s.erase .gap) ↔ InertExtras s := inertExtras_congr rfl
  simp [columnsSpans, clean_declarations, cleanLines_cellsSpans, gap, own]

private theorem cleanLines_containerSpans (depth : Nat) (s : StyleMap) (body : List SpanLine) :
    CleanLines (containerSpans depth s body) ↔ InertExtras s ∧ CleanLines body := by
  simp [containerSpans, clean_declarations]

theorem extras_resolved (c : Component) : c.resolved.extras = c.styles.filled.extras := by
  have none : c.kind.defaultStyles.extras = .empty := extras_ofList _
  apply Dictionary.ext_get?
  intro k
  have merged := Dictionary.get?_insertAll c.kind.defaultStyles.extras c.styles.filled.extras k
  rw [none, Dictionary.get?_empty, Option.or_none] at merged
  rw [← merged, ← none]
  rfl

theorem mem_extras_resolved (c : Component) {e : String × String} (h : isEmitted e.2 = true) :
    e ∈ c.resolved.extras.entries ↔ e ∈ c.styles.extras.entries := by
  have full : e.2 ≠ "" := by
    intro he
    rw [he] at h
    exact absurd h (by decide)
  rw [extras_resolved]
  exact List.mem_filter.trans (and_iff_left (decide_eq_true full))

theorem inertExtras_resolved (c : Component) : InertExtras c.resolved ↔ InertExtras c.styles := by
  constructor
  · intro h e he hv
    exact h e ((mem_extras_resolved c hv).mpr he) hv
  · intro h e he hv
    exact h e ((mem_extras_resolved c hv).mp he) hv

mutual

private theorem cleanLines_fragmentSpans : ∀ (c : Component) (depth : Nat),
    CleanLines (fragmentSpans depth c) ↔ ∀ n ∈ c.compiled, InertExtras n.styles
  | .leaf id s l, depth => by
    rw [fragmentSpans, cleanLines_leafSpans, inertExtras_resolved, compiled,
      List.forall_mem_singleton]
  | .column id s widths cells, depth => by
    rw [fragmentSpans, cleanLines_columnsSpans, inertExtras_resolved,
      cleanLines_fragmentCellsSpans cells, compiled, List.forall_mem_cons]
  | .container id s children, depth => by
    rw [fragmentSpans, cleanLines_containerSpans, inertExtras_resolved,
      cleanLines_fragmentListSpans children, compiled, List.forall_mem_cons]

private theorem cleanLines_fragmentListSpans : ∀ (cs : List Component) (depth : Nat),
    CleanLines (fragmentListSpans depth cs) ↔ ∀ n ∈ compiledIn cs, InertExtras n.styles
  | [], _ => by simp [fragmentListSpans, compiledIn]
  | c :: rest, depth => by
    rw [fragmentListSpans, cleanLines_append, cleanLines_fragmentSpans c,
      cleanLines_fragmentListSpans rest, compiledIn, List.forall_mem_append]

private theorem cleanLines_fragmentCellsSpans : ∀ (css : List (List Component)) (depth count : Nat),
    (∀ ls ∈ (fragmentCellsSpans depth css).take count, CleanLines ls) ↔
      ∀ n ∈ compiledCells count css, InertExtras n.styles
  | [], _, _ => by simp [fragmentCellsSpans, compiledCells]
  | _ :: _, _, 0 => by simp [compiledCells]
  | cs :: rest, depth, count + 1 => by
    rw [fragmentCellsSpans, List.take_succ_cons, List.forall_mem_cons,
      cleanLines_fragmentListSpans cs, cleanLines_fragmentCellsSpans rest, compiledCells,
      List.forall_mem_append]

end

private theorem cleanLines_headSpans (title : String) : CleanLines (headSpans title) := by
  simp [headSpans]

theorem clean_bodyStyles (c : Canvas) : Clean (styledSpans
    [("margin", "0"), ("padding", "0"), ("background-color", c.backgroundColor)]) :=
  clean_named ["margin", "padding", "background-color"] (by decide) rfl

theorem clean_innerTableStyles (c : Canvas) : Clean (styledSpans
    [("width", "100%"), ("max-width", c.maxWidth), ("background-color", c.contentBackgroundColor),
      ("font-family", c.fontFamily), ("font-size", c.fontSize), ("line-height", c.lineHeight),
      ("color", c.textColor)]) :=
  clean_named ["width", "max-width", "background-color", "font-family", "font-size",
    "line-height", "color"] (by decide) rfl

private theorem cleanLines_bodySpans (c : Canvas) (content : List SpanLine) :
    CleanLines (bodySpans c content) ↔ CleanLines content := by
  have padding : Clean (styledSpans [("padding", c.padding)]) :=
    clean_named ["padding"] (by decide) rfl
  have outer : Clean (outerTableSpans c) := by
    have named : Clean (styledSpans [("background-color", c.backgroundColor)]) :=
      clean_named ["background-color"] (by decide) rfl
    simp [outerTableSpans, named]
  have inner : Clean (innerTableSpans c) := by
    simp [innerTableSpans, clean_widthSpans, clean_innerTableStyles]
  simp [bodySpans, clean_bodyStyles, padding, outer, inner]

theorem cleanLines_documentSpans (components : List Component) (c : Canvas) (title : String) :
    CleanLines (documentSpans components c title) ↔
      ∀ n ∈ compiledIn components, InertExtras n.styles := by
  rw [← cleanLines_fragmentListSpans components contentDepth]
  simp [documentSpans, cleanLines_headSpans, cleanLines_bodySpans]

def Span.rich? : Span → Option String
  | .rich t => some t
  | _ => none

def richTexts (ss : List Span) : List String := ss.filterMap Span.rich?

def richLines (ls : List SpanLine) : List String := ls.flatMap fun l => richTexts l.spans

/-- What a component hands through. -/
def richText? : Component → Option String
  | .leaf _ _ (.text content) | .leaf _ _ (.heading content _) => some content
  | _ => none

section

variable {ss ts : List Span} {ls ks : List SpanLine}

@[simp] theorem richTexts_nil : richTexts [] = [] := rfl

@[simp] theorem richTexts_cons {s : Span} :
    richTexts (s :: ss) = s.rich?.toList ++ richTexts ss := by
  cases s <;> rfl

@[simp] theorem richTexts_append : richTexts (ss ++ ts) = richTexts ss ++ richTexts ts :=
  List.filterMap_append

@[simp] theorem richLines_nil : richLines [] = [] := rfl

@[simp] theorem richLines_cons {l : SpanLine} :
    richLines (l :: ls) = richTexts l.spans ++ richLines ls := rfl

@[simp] theorem richLines_append : richLines (ls ++ ks) = richLines ls ++ richLines ks :=
  List.flatMap_append

@[simp] theorem richLines_spanBlock {depth : Nat} {opening closing : List Span} :
    richLines (spanBlock depth opening closing ls) =
      richTexts opening ++ (richLines ls ++ richTexts closing) := by
  simp [spanBlock]

end

@[simp] theorem richTexts_styledSpans (ds : List (String × String)) :
    richTexts (styledSpans ds) = [] := by
  have none (ds : List (String × String)) : richTexts (separated ds) = [] := by
    induction ds with
    | nil => rfl
    | cons d ds ih =>
      cases ds with
      | nil => rfl
      | cons e ds => simp [separated, declarationSpans, Span.rich?, ih]
  unfold styledSpans
  split
  · rfl
  · simp [none, Span.rich?]

@[simp] theorem richTexts_widthSpans (p : UnitPolicy) (value : String) :
    richTexts (widthSpans p value) = [] := by
  unfold widthSpans
  split <;> rfl

private theorem richLines_leafSpans (depth : Nat) (i : String) (r s : StyleMap) (l : Leaf) :
    richLines (leafSpans depth r l) = (richText? (.leaf i s l)).toList := by
  cases l with
  | list kind items =>
    have none : richLines (items.map fun item =>
        ⟨depth + 1, [.markup .item, .escaped item, .markup .itemEnd]⟩) = [] := by
      induction items with
      | nil => rfl
      | cons item items ih => rw [List.map_cons, richLines_cons, ih]; rfl
    cases kind <;>
      simp [leafSpans, listSpans, tagSpans, listOpening, listClosing, Span.rich?, none, richText?]
  | _ =>
    simp [leafSpans, paragraphSpans, headingSpans, imageSpans, buttonSpans, dividerSpans,
      spacerSpans, tagSpans, Span.rich?, richText?]

private theorem richLines_cellsSpans (depth : Nat) (widths : List String)
    (contents : List (List SpanLine)) :
    richLines (cellsSpans depth widths contents) =
      (contents.take widths.length).flatMap richLines := by
  induction widths generalizing contents with
  | nil => rfl
  | cons width widths ih =>
    cases contents with
    | nil => simp [cellsSpans, cellSpans, tagSpans, Span.rich?, ih]
    | cons ls contents => simp [cellsSpans, cellSpans, tagSpans, Span.rich?, ih]

private theorem richLines_columnsSpans (depth : Nat) (s : StyleMap) (widths : List String)
    (contents : List (List SpanLine)) :
    richLines (columnsSpans depth s widths contents) =
      (contents.take widths.length).flatMap richLines := by
  simp [columnsSpans, tagSpans, Span.rich?, richLines_cellsSpans]

private theorem richLines_containerSpans (depth : Nat) (s : StyleMap) (body : List SpanLine) :
    richLines (containerSpans depth s body) = richLines body := by
  simp [containerSpans, tagSpans, Span.rich?]

mutual

private theorem richLines_fragmentSpans : ∀ (c : Component) (depth : Nat),
    richLines (fragmentSpans depth c) = c.compiled.filterMap richText?
  | .leaf i s l, depth => by
    rw [fragmentSpans, richLines_leafSpans depth i _ s l, compiled, List.filterMap_cons]
    cases richText? (.leaf i s l) <;> rfl
  | .column i s widths cells, depth => by
    rw [fragmentSpans, richLines_columnsSpans, richLines_fragmentCellsSpans cells, compiled,
      List.filterMap_cons_none rfl]
  | .container i s children, depth => by
    rw [fragmentSpans, richLines_containerSpans, richLines_fragmentListSpans children, compiled,
      List.filterMap_cons_none rfl]

private theorem richLines_fragmentListSpans : ∀ (cs : List Component) (depth : Nat),
    richLines (fragmentListSpans depth cs) = (compiledIn cs).filterMap richText?
  | [], _ => rfl
  | c :: rest, depth => by
    rw [fragmentListSpans, richLines_append, richLines_fragmentSpans c,
      richLines_fragmentListSpans rest, compiledIn, List.filterMap_append]

private theorem richLines_fragmentCellsSpans : ∀ (css : List (List Component)) (depth count : Nat),
    ((fragmentCellsSpans depth css).take count).flatMap richLines =
      (compiledCells count css).filterMap richText?
  | [], _, _ => by simp [fragmentCellsSpans, compiledCells]
  | _ :: _, _, 0 => by simp [compiledCells]
  | cs :: rest, depth, count + 1 => by
    rw [fragmentCellsSpans, List.take_succ_cons, List.flatMap_cons,
      richLines_fragmentListSpans cs, richLines_fragmentCellsSpans rest, compiledCells,
      List.filterMap_append]

end

theorem richLines_documentSpans (components : List Component) (c : Canvas) (title : String) :
    richLines (documentSpans components c title) = (compiledIn components).filterMap richText? := by
  rw [← richLines_fragmentListSpans components contentDepth]
  simp [documentSpans, headSpans, bodySpans, outerTableSpans, innerTableSpans, tagSpans,
    Span.rich?]

/-- A compiled document in pieces: markup of the compiler's own, the contents of its texts and
headings as they are, and data. The data is inert exactly when the names of all styles outside the
vocabulary that are written out are. -/
theorem inert_data_iff (components : List Component) (c : Canvas) (o : Options) :
    compile components c o = render o ((documentSpans components c o.title).map SpanLine.line) ∧
      richLines (documentSpans components c o.title) =
        (compiledIn components).filterMap richText? ∧
      ((∀ l ∈ documentSpans components c o.title, ∀ s ∈ l.spans,
          s.isData = true → Inert s.text) ↔
        ∀ n ∈ compiledIn components, ∀ e ∈ n.styles.extras.entries,
          isEmitted e.2 = true → Inert e.1) := by
  refine ⟨?_, richLines_documentSpans components c o.title,
    cleanLines_documentSpans components c o.title⟩
  rw [documentSpans_line, compile]

/-- A divider with a style under the name `a"b`. -/
def quotedName : Component :=
  .leaf "d" (StyleMap.empty.setExtra "a\"b" "1" (by decide)) .divider

/-- The name ends the attribute that it is written into. -/
theorem quote_in_name :
    ¬ ∀ l ∈ documentSpans [quotedName] .default "Email", ∀ s ∈ l.spans,
      s.isData = true → Inert s.text := by
  intro h
  have names := (cleanLines_documentSpans [quotedName] .default "Email").mp h quotedName
    (List.mem_singleton_self _)
  have inert := names ("a\"b", "1") (List.mem_singleton_self _) (by decide)
  exact absurd inert (by decide)

example : fragment 0 quotedName =
    [⟨0, "<hr style=\"width: 100%; margin-top: 20px; margin-bottom: 20px; border: none; " ++
      "border-top: 1px solid #e0e0e0; a\"b: 1\" />"⟩] := by
  decide

end MailComposer.Html
