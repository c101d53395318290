import Mathlib.Tactic.IntervalCases
import MailComposer.Proofs.Html.Injection
import MailComposer.Proofs.Html.Scan
import MailComposer.Proofs.Tree.Nodes

/-!
Compiled documents are well nested. Each line group of a component reads back to where it started,
whatever stands open around it, since what the compiler takes from the document's data holds no sign
of a tag: it is escaped, a number, a name without signs, or rich text without tags.
-/
namespace MailComposer.Html
open Component (nodes nodesIn nodesInCells)

private theorem inert_separated {ds : List (String × String)} (h : Clean (separated ds)) :
    Inert (written (separated ds)) := by
  have own (d : String × String) (hd : Inert d.1) : Inert (written (declarationSpans d)) := by
    simp only [declarationSpans, written_cons, written_nil, text_name, text_markup, text_escaped,
      Markup.text, inert_append]
    exact ⟨hd, by decide, inert_escape _, by decide⟩
  rw [clean_separated] at h
  induction ds with
  | nil => decide
  | cons d ds ih =>
    obtain ⟨hd, hds⟩ := List.forall_mem_cons.mp h
    cases ds with
    | nil => exact own d hd
    | cons e ds =>
      rw [separated, written_append, written_cons, inert_append, inert_append]
      · exact ⟨own d hd, (by decide : Inert "; "), ih hds⟩
      · simp

private theorem continues_styled {ds : List (String × String)} (h : Clean (styledSpans ds)) :
    Continues (styled ds) := by
  rw [← written_styledSpans]
  unfold styledSpans at *
  split at *
  · exact continues_empty
  · rw [clean_markup, clean_append] at h
    have hs := continues_attribute "style=\"" (fun _ _ => rfl) (inert_separated h.1)
    simpa [String.append_assoc] using hs

private theorem continues_widthAttribute (p : UnitPolicy) (value : String) :
    Continues (widthAttribute p value) := by
  unfold widthAttribute
  split
  · exact continues_empty
  · next m _ => exact continues_attribute "width=\"" (fun _ _ => rfl) (inert_width m)

/-- Read in any context, the pieces open one tag and leave it open. -/
def Opens (tag : List Char) (ss : List Span) : Prop :=
  ∀ opened, Reads (written ss) ⟨opened, .text⟩ ⟨tag :: opened, .text⟩

def Closes (tag : List Char) (ss : List Span) : Prop :=
  ∀ opened, Reads (written ss) ⟨tag :: opened, .text⟩ ⟨opened, .text⟩

def Turns (ss : List Span) : Prop :=
  ∀ opened, Reads (written ss) ⟨opened, .text⟩ ⟨opened, .text⟩

section
variable {tag : List Char} {ss ts before : List Span} {ds : List (String × String)}

@[simp] theorem written_singleton (s : Span) : written [s] = s.text := by
  rw [written_cons, written_nil, String.append_empty]

theorem Opens.closed (hs : Opens tag ss) (ht : Closes tag ts) : Turns (ss ++ ts) := by
  intro opened
  rw [written_append]
  exact (hs opened).append (ht opened)

private theorem Turns.closes (ht : Turns ss) (hc : Closes tag ts) : Closes tag (ss ++ ts) := by
  intro opened
  rw [written_append]
  exact (ht _).append (hc opened)

private theorem turns_escaped (t : String) : Turns [.escaped t] := by
  intro opened
  rw [written_singleton]
  exact reads_plain (inert_escape t).plain opened

private theorem turns_rich {t : String} (h : Plain t) : Turns [.rich t] := by
  intro opened
  rw [written_singleton]
  exact reads_plain h opened

/-- A tag with a style attribute opens as it does without. -/
private theorem opens_tagSpans (hb : Starts tag (written before)) (hd : Clean (styledSpans ds))
    (hf : ∀ opened, Reader.finish opened tag = some ⟨tag :: opened, .text⟩) :
    Opens tag (tagSpans before ds [.markup .tagEnd]) := by
  intro opened
  rw [written_tagSpans, written_singleton]
  exact (hb.append (continues_styled hd)).finish (hf opened)

/-- A whole element, from its opening tag to its closing one. -/
private theorem turns_tagSpans {after : List Span} (hb : Starts tag (written before))
    (hd : Clean (styledSpans ds))
    (hf : ∀ opened, Reader.finish opened tag = some ⟨tag :: opened, .text⟩)
    (ha : Closes tag after) : Turns (tagSpans before ds (.markup .tagEnd :: after)) := by
  intro opened
  rw [written_tagSpans, written_cons, ← String.append_assoc]
  exact ((hb.append (continues_styled hd)).finish (hf opened)).append (ha opened)

/-- An element that holds nothing, on one line. -/
private theorem turns_emptyDivision (hd : Clean (styledSpans ds)) :
    Turns (tagSpans [.markup .division] ds [.markup .emptyDivisionEnd]) := by
  intro opened
  have starts : Starts "div".toList (written [.markup .division]) :=
    ⟨.name ['v', 'i', 'd'], rfl, fun _ => rfl⟩
  have closes : Reads "</div>" ⟨"div".toList :: opened, .text⟩ ⟨opened, .text⟩ := rfl
  have opens := (starts.append (continues_styled hd)).finish
    (rfl : Reader.finish opened "div".toList = some ⟨"div".toList :: opened, .text⟩)
  rw [written_tagSpans, written_singleton, text_markup]
  simpa [String.append_assoc] using opens.append closes

private theorem turns_voidTag (hb : Starts tag (written before)) (hd : Clean (styledSpans ds))
    (hf : ∀ opened, Reader.finish opened tag = some ⟨opened, .text⟩) :
    Turns (tagSpans before ds [.markup .voidTagEnd]) := by
  intro opened
  rw [written_tagSpans, written_singleton]
  exact (hb.append (continues_styled hd)).finishVoid (hf opened)

end

/-- The lines, written down, read back to where they start. -/
def Nested (o : Options) (ls : List SpanLine) : Prop :=
  ∀ opened, Reads (render o (ls.map SpanLine.line)) ⟨opened, .text⟩ ⟨opened, .text⟩

section
variable {o : Options} {ls ks : List SpanLine} {depth : Nat}

private theorem nested_nil : Nested o [] := fun _ => .empty _

theorem Nested.append (hl : Nested o ls) (hk : Nested o ks) : Nested o (ls ++ ks) := by
  intro opened
  rw [List.map_append, render, List.map_append, String.join_append]
  exact (hl opened).append (hk opened)

variable (hi : Plain o.indent)
include hi

/-- An indent and the end of a line are plain text. -/
private theorem reads_line {ss : List Span} {as bs : List (List Char)}
    (h : Reads (written ss) ⟨as, .text⟩ ⟨bs, .text⟩) :
    Reads (Line.render o ⟨depth, written ss⟩) ⟨as, .text⟩ ⟨bs, .text⟩ := by
  unfold Line.render
  split
  · have hindent : Reads (String.join (List.replicate depth o.indent)) ⟨as, .text⟩ ⟨as, .text⟩ :=
      .join fun s hs => List.eq_of_mem_replicate hs ▸ reads_plain hi as
    exact (hindent.append h).append rfl
  · exact h

private theorem nested_line {ss : List Span} (h : Turns ss) : Nested o [⟨depth, ss⟩] := by
  intro opened
  rw [render, List.map_map, List.map_singleton, String.join_cons, String.join_nil,
    String.append_empty]
  exact reads_line hi (h opened)

private theorem nested_lines (h : ∀ l ∈ ls, Turns l.spans) : Nested o ls := by
  induction ls with
  | nil => exact nested_nil
  | cons l ls ih =>
    obtain ⟨hl, hls⟩ := List.forall_mem_cons.mp h
    exact (nested_line hi hl).append (ih hls)

private theorem nested_spanBlock {tag : List Char} {opening closing : List Span}
    (ho : Opens tag opening) (hc : Closes tag closing) (hl : Nested o ls) :
    Nested o (spanBlock depth opening closing ls) := by
  intro opened
  have hrender : render o ((spanBlock depth opening closing ls).map SpanLine.line) =
      Line.render o ⟨depth, written opening⟩ ++
        (render o (ls.map SpanLine.line) ++ Line.render o ⟨depth, written closing⟩) := by
    rw [map_line_spanBlock, block, render, List.map_cons, String.join_cons, List.map_append,
      String.join_append, List.map_singleton, String.join_cons, String.join_nil,
      String.append_empty, render]
  rw [hrender]
  exact (reads_line hi (ho opened)).append ((hl _).append (reads_line hi (hc opened)))

end

theorem digit_mem (level : UInt8) :
    toString (Leaf.clampLevel level).toNat ∈ ["1", "2", "3", "4", "5", "6"] := by
  have hrange : 1 ≤ (Leaf.clampLevel level).toNat ∧ (Leaf.clampLevel level).toNat ≤ 6 := by
    unfold Leaf.clampLevel
    simp only [Max.max, Min.min]
    split <;> split <;> simp_all [UInt8.le_iff_toNat_le]
  generalize (Leaf.clampLevel level).toNat = n at hrange
  obtain ⟨h1, h6⟩ := hrange
  interval_cases n <;> decide

private theorem turns_heading {digit content : String} (hd : digit ∈ ["1", "2", "3", "4", "5", "6"])
    (hc : Plain content) {ds : List (String × String)} (hs : Clean (styledSpans ds)) :
    Turns (tagSpans [.markup .heading, .figure digit] ds
      [.markup .tagEnd, .rich content, .markup .headingEnd, .figure digit, .markup .tagEnd]) := by
  simp only [List.mem_cons, List.not_mem_nil, or_false] at hd
  -- The name of a tag is read sign by sign, so each digit has a reading of its own.
  rcases hd with rfl | rfl | rfl | rfl | rfl | rfl <;>
    exact turns_tagSpans ⟨.name _, rfl, fun _ => rfl⟩ hs (fun _ => rfl)
      ((turns_rich hc).closes fun _ => rfl)

private theorem starts_image (src alt : String) : Starts "img".toList (written
    [.markup .imageSource, .escaped src, .markup .imageText, .escaped alt, .markup .quote]) := by
  refine ⟨.attributes "img".toList, rfl, fun opened => ?_⟩
  let source : Reader := ⟨opened, .value "img".toList '"'⟩
  have before : Reads Markup.imageSource.text ⟨opened, .text⟩ source := rfl
  have between : Reads Markup.imageText.text source source := rfl
  have after : Reads Markup.quote.text source ⟨opened, .attributes "img".toList⟩ := rfl
  simp only [written_cons, written_nil, String.append_empty, text_markup, text_escaped]
  exact before.append ((reads_inert (inert_escape src) opened _).append
    (between.append ((reads_inert (inert_escape alt) opened _).append after)))

private theorem starts_link (href : String) : Starts "a".toList (written
    [.markup .link, .escaped href, .markup .linkTarget]) := by
  refine ⟨.attributes "a".toList, rfl, fun opened => ?_⟩
  let target : Reader := ⟨opened, .value "a".toList '"'⟩
  have before : Reads Markup.link.text ⟨opened, .text⟩ target := rfl
  have after : Reads Markup.linkTarget.text target ⟨opened, .attributes "a".toList⟩ := rfl
  simp only [written_cons, written_nil, String.append_empty, text_markup, text_escaped]
  exact before.append ((reads_inert (inert_escape href) opened _).append after)

set_option maxRecDepth 1000 in
private theorem starts_spacedTable (gap : Nat) : Starts "table".toList (written
    [.markup .spacedTable, .figure (toString gap), .markup .borderless]) := by
  refine ⟨.attributes "table".toList, rfl, fun opened => ?_⟩
  let spacing : Reader := ⟨opened, .value "table".toList '"'⟩
  have before : Reads Markup.spacedTable.text ⟨opened, .text⟩ spacing := rfl
  have after : Reads Markup.borderless.text spacing ⟨opened, .attributes "table".toList⟩ := rfl
  simp only [written_cons, written_nil, String.append_empty, text_markup, text_figure]
  exact before.append ((reads_inert (inert_digits gap) opened _).append after)

private theorem opens_division {ds : List (String × String)} (h : Clean (styledSpans ds)) :
    Opens "div".toList (tagSpans [.markup .division] ds [.markup .tagEnd]) :=
  opens_tagSpans ⟨.name ['v', 'i', 'd'], rfl, fun _ => rfl⟩ h fun _ => rfl

private theorem turns_item (item : String) :
    Turns [.markup .item, .escaped item, .markup .itemEnd] := by
  have opens : Opens "li".toList [.markup .item] := fun _ => rfl
  have closes : Closes "li".toList [.markup .itemEnd] := fun _ => rfl
  exact opens.closed ((turns_escaped item).closes closes)

private theorem starts_list (kind : ListKind) :
    Starts kind.tag.toList (written [listOpening kind]) := by
  cases kind with
  | unordered => exact ⟨.name ['l', 'u'], rfl, fun _ => rfl⟩
  | ordered => exact ⟨.name ['l', 'o'], rfl, fun _ => rfl⟩

private theorem closes_list (kind : ListKind) : Closes kind.tag.toList [listClosing kind] := by
  cases kind with
  | unordered => exact fun _ => rfl
  | ordered => exact fun _ => rfl

private theorem closes_table : Closes "table".toList [.markup .tableEnd] := fun _ => rfl

private theorem opens_row : Opens "tr".toList [.markup .row] := fun _ => rfl

private theorem closes_row : Closes "tr".toList [.markup .rowEnd] := fun _ => rfl

private theorem closes_cell : Closes "td".toList [.markup .cellEnd] := fun _ => rfl

private theorem opens_cellSpans (width : String) : Opens "td".toList (cellSpans width) := by
  have starts : Starts "td".toList (written [.markup .cell]) :=
    ⟨.name ['d', 't'], rfl, fun _ => rfl⟩
  have top : Continues (written [.markup .topAligned]) := by
    rw [written_singleton]
    exact continues_attributes rfl fun _ _ => rfl
  have width := continues_widthAttribute .percentSize width
  rw [← written_widthSpans] at width
  have before := starts.append (width.append top)
  rw [← written_append, ← written_append] at before
  exact opens_tagSpans before (clean_cellStyles _) fun _ => rfl

section
variable {o : Options} (hi : Plain o.indent) {depth : Nat}
include hi

private theorem nested_leafSpans {s : StyleMap} (hx : InertExtras s) {l : Leaf}
    (hr : ∀ i s' t, richText? (.leaf i s' l) = some t → Plain t) :
    Nested o (leafSpans depth s l) := by
  have clean {s' : StyleMap} (h : s'.extras = s.extras) : Clean (styledSpans s'.declarations) :=
    (clean_declarations s').mpr ((inertExtras_congr h).mpr hx)
  cases l with
  | text content =>
    have closes : Closes "p".toList [.rich content, .markup .paragraphEnd] :=
      (turns_rich (hr "" s content rfl)).closes fun _ => rfl
    exact nested_line hi
      (turns_tagSpans ⟨.name ['p'], rfl, fun _ => rfl⟩ (clean rfl) (fun _ => rfl) closes)
  | heading content level =>
    exact nested_line hi (turns_heading (digit_mem level) (hr "" s content rfl) (clean rfl))
  | image src alt =>
    have wrapper : Clean (styledSpans (imageWrapper s).declarations) :=
      (clean_declarations _).mpr (inertExtras_imageWrapper s)
    have own : Nested o [⟨depth + 1, _⟩] := nested_line hi
      (turns_voidTag (starts_image src alt) (clean (extras_imageStyles s)) fun _ => rfl)
    exact nested_spanBlock hi (opens_division wrapper) (fun _ => rfl) own
  | button label href =>
    have alignment : Clean (styledSpans [("text-align", buttonAlignment s)]) :=
      clean_named ["text-align"] (by decide) rfl
    have closes : Closes "a".toList [.escaped label, .markup .linkEnd] :=
      (turns_escaped label).closes fun _ => rfl
    have inner : Clean (styledSpans (s.erase .textAlign).declarations) := clean rfl
    have own : Nested o [⟨depth + 1, _⟩] := nested_line hi
      (turns_tagSpans (starts_link href) inner (fun _ => rfl) closes)
    exact nested_spanBlock hi (opens_division alignment) (fun _ => rfl) own
  | divider =>
    exact nested_line hi
      (turns_voidTag ⟨.name ['r', 'h'], rfl, fun _ => rfl⟩ (clean rfl) fun _ => rfl)
  | spacer height =>
    exact nested_line hi (turns_emptyDivision (clean rfl))
  | list kind items =>
    have entries : Nested o (items.map fun item =>
        ⟨depth + 1, [.markup .item, .escaped item, .markup .itemEnd]⟩) := by
      refine nested_lines hi fun l hl => ?_
      obtain ⟨item, -, rfl⟩ := List.mem_map.mp hl
      exact turns_item item
    refine nested_spanBlock hi (opens_tagSpans (starts_list kind) (clean (extras_listStyles s kind))
      fun _ => ?_) (closes_list kind) entries
    cases kind <;> rfl

private theorem nested_cellsSpans (widths : List String) {contents : List (List SpanLine)}
    (h : ∀ ls ∈ contents, Nested o ls) : Nested o (cellsSpans depth widths contents) := by
  induction widths generalizing contents with
  | nil => exact nested_nil
  | cons width widths ih =>
    have content : Nested o (contents.head?.getD []) := by
      cases contents with
      | nil => exact nested_nil
      | cons ls _ => exact h ls List.mem_cons_self
    refine (nested_spanBlock hi (opens_cellSpans width) closes_cell content).append ?_
    exact ih fun ls hls => h ls (List.mem_of_mem_tail hls)

private theorem nested_columnsSpans {s : StyleMap} (hx : InertExtras s) (widths : List String)
    {contents : List (List SpanLine)} (h : ∀ ls ∈ contents, Nested o ls) :
    Nested o (columnsSpans depth s widths contents) := by
  have clean : Clean (styledSpans (s.erase .gap).declarations) :=
    (clean_declarations _).mpr ((inertExtras_congr rfl).mpr hx)
  have table := opens_tagSpans (starts_spacedTable (columnGap s)) clean fun _ => rfl
  exact nested_spanBlock hi table closes_table
    (nested_spanBlock hi opens_row closes_row (nested_cellsSpans hi widths h))

private theorem nested_containerSpans {s : StyleMap} (hx : InertExtras s) {body : List SpanLine}
    (h : Nested o body) : Nested o (containerSpans depth s body) :=
  nested_spanBlock hi (opens_division ((clean_declarations s).mpr hx)) (fun _ => rfl) h

end

/-- What of a component goes out as it is holds no sign of a tag. -/
structure TagFree (c : Component) : Prop where
  rich : ∀ t, richText? c = some t → Plain t
  extras : InertExtras c.styles

section
variable {o : Options}

mutual

private theorem nested_fragmentSpans (hi : Plain o.indent) : ∀ (depth : Nat) {c : Component},
    (∀ n ∈ nodes c, TagFree n) → Nested o (fragmentSpans depth c)
  | depth, .leaf i s l, h => by
    have own := h (.leaf i s l) List.mem_cons_self
    refine nested_leafSpans hi ((inertExtras_resolved _).mpr own.extras) fun i' s' t ht => ?_
    exact own.rich t (by cases l <;> exact ht)
  | depth, .column i s widths contents, h => by
    obtain ⟨own, below⟩ := List.forall_mem_cons.mp h
    exact nested_columnsSpans hi ((inertExtras_resolved _).mpr own.extras) widths
      (nested_fragmentCellsSpans hi (depth + 3) below)
  | depth, .container i s children, h => by
    obtain ⟨own, below⟩ := List.forall_mem_cons.mp h
    exact nested_containerSpans hi ((inertExtras_resolved _).mpr own.extras)
      (nested_fragmentListSpans hi (depth + 1) below)

private theorem nested_fragmentListSpans (hi : Plain o.indent) :
    ∀ (depth : Nat) {cs : List Component},
    (∀ n ∈ nodesIn cs, TagFree n) → Nested o (fragmentListSpans depth cs)
  | _, [], _ => nested_nil
  | depth, c :: rest, h => by
    obtain ⟨hc, hr⟩ := List.forall_mem_append.mp h
    exact (nested_fragmentSpans hi depth hc).append (nested_fragmentListSpans hi depth hr)

private theorem nested_fragmentCellsSpans (hi : Plain o.indent) :
    ∀ (depth : Nat) {cells : List (List Component)}, (∀ n ∈ nodesInCells cells, TagFree n) →
      ∀ ls ∈ fragmentCellsSpans depth cells, Nested o ls
  | _, [], _, _, hls => nomatch hls
  | depth, cs :: rest, h, ls, hls => by
    obtain ⟨hc, hr⟩ := List.forall_mem_append.mp h
    rcases List.mem_cons.mp hls with rfl | hls
    · exact nested_fragmentListSpans hi depth hc
    · exact nested_fragmentCellsSpans hi depth hr ls hls

end

private theorem turns_title (title : String) :
    Turns [.markup .title, .escaped title, .markup .titleEnd] := by
  have opens : Opens "title".toList [.markup .title] := fun _ => rfl
  have closes : Closes "title".toList [.markup .titleEnd] := fun _ => rfl
  exact opens.closed ((turns_escaped title).closes closes)

set_option maxRecDepth 1000 in
private theorem nested_headSpans (hi : Plain o.indent) (title : String) :
    Nested o (headSpans title) := by
  have head : Opens "head".toList [.markup .head] := fun _ => rfl
  refine nested_spanBlock hi head (fun _ => rfl) (nested_lines hi ?_)
  simp only [List.forall_mem_cons]
  exact ⟨fun _ => rfl, fun _ => rfl, fun _ => rfl, turns_title title, fun _ h => nomatch h⟩

set_option maxRecDepth 1000 in
private theorem opens_outerTableSpans (c : Canvas) : Opens "table".toList (outerTableSpans c) := by
  have clean : Clean (styledSpans [("background-color", c.backgroundColor)]) :=
    clean_named ["background-color"] (by decide) rfl
  exact opens_tagSpans ⟨.attributes "table".toList, rfl, fun _ => rfl⟩ clean fun _ => rfl

private theorem opens_innerTableSpans (c : Canvas) : Opens "table".toList (innerTableSpans c) := by
  have starts : Starts "table".toList (written [.markup .table]) :=
    ⟨.attributes "table".toList, rfl, fun _ => rfl⟩
  have unspaced : Continues (written [.markup .unspaced]) := by
    rw [written_singleton]
    exact continues_attributes rfl fun _ _ => rfl
  have width := continues_widthAttribute .size c.contentWidth
  rw [← written_widthSpans] at width
  have before := starts.append (width.append unspaced)
  rw [← written_append, ← written_append] at before
  exact opens_tagSpans before (clean_innerTableStyles c) fun _ => rfl

private theorem nested_bodySpans (hi : Plain o.indent) (c : Canvas) {content : List SpanLine}
    (h : Nested o content) : Nested o (bodySpans c content) := by
  have padding : Clean (styledSpans [("padding", c.padding)]) :=
    clean_named ["padding"] (by decide) rfl
  have body : Opens "body".toList (tagSpans [.markup .body]
      [("margin", "0"), ("padding", "0"), ("background-color", c.backgroundColor)]
      [.markup .tagEnd]) :=
    opens_tagSpans ⟨.name ['y', 'd', 'o', 'b'], rfl, fun _ => rfl⟩ (clean_bodyStyles c)
      fun _ => rfl
  have centered : Opens "td".toList
      (tagSpans [.markup .centeredCell] [("padding", c.padding)] [.markup .tagEnd]) :=
    opens_tagSpans ⟨.attributes "td".toList, rfl, fun _ => rfl⟩ padding fun _ => rfl
  have cell : Opens "td".toList [.markup .plainCell] := fun _ => rfl
  have closing : Closes "body".toList [.markup .bodyEnd] := fun _ => rfl
  exact nested_spanBlock hi body closing <|
    nested_spanBlock hi (opens_outerTableSpans c) closes_table <|
      nested_spanBlock hi opens_row closes_row <|
        nested_spanBlock hi centered closes_cell <|
          nested_spanBlock hi (opens_innerTableSpans c) closes_table <|
            nested_spanBlock hi opens_row closes_row <|
              nested_spanBlock hi cell closes_cell h

theorem nested_documentSpans (hi : Plain o.indent) {components : List Component}
    (h : ∀ n ∈ nodesIn components, TagFree n) (c : Canvas) (title : String) :
    Nested o (documentSpans components c title) := by
  have page : Opens "html".toList [.markup .html] := fun _ => rfl
  have doctype : Nested o [⟨0, [.markup .doctype]⟩] := nested_line hi fun _ => rfl
  have content := nested_bodySpans hi c (nested_fragmentListSpans hi contentDepth h)
  exact doctype.append
    (nested_spanBlock hi page (fun _ => rfl) ((nested_headSpans hi title).append content))

/-- A document is well nested if its rich texts and the indent hold neither sign of a tag and the
names of its styles no quote either, whatever its other data are. -/
theorem wellNested_compile (components : List Component) (c : Canvas) (o : Options)
    (hr : ∀ t ∈ (nodesIn components).filterMap richText?, Plain t)
    (hx : ∀ n ∈ nodesIn components, ∀ e ∈ n.styles.extras.entries, Inert e.1)
    (hi : Plain o.indent) : WellNested (compile components c o) := by
  have free : ∀ n ∈ nodesIn components, TagFree n := fun n hn =>
    ⟨fun t ht => hr t (List.mem_filterMap.mpr ⟨n, hn, ht⟩), fun e he _ => hx n hn e he⟩
  have nested := nested_documentSpans hi free c o.title []
  rw [documentSpans_line] at nested
  exact nested

/-- Signs of tags and attributes wherever they are escaped, and a row that lacks a list. -/
def newsletter : List Component :=
  [.container "c" (StyleMap.empty.setExtra "data-Mark" "a<b\">" (by decide))
    [.leaf "t" .empty (.text "5 &lt; 6, \"so\" it's"), .leaf "h" .empty (.heading "News" 9),
      .column "r" .empty ["60%", "auto"]
        [[.leaf "i" .empty (.image "x\" y=\"</td>" "a > b"),
          .leaf "u" .empty (.button "<b>" "#>")]]],
    .leaf "l" .empty (.list .ordered ["</li>", "\"/>"]), .leaf "d" .empty .divider]

theorem wellNested_compile_newsletter :
    let c : Canvas := { padding := "\"><td", contentWidth := "600px" }
    let o : Options := { indent := "\t'", title := "</title><p>" }
    (∀ t ∈ (nodesIn newsletter).filterMap richText?, Plain t) ∧
      (∀ n ∈ nodesIn newsletter, ∀ e ∈ n.styles.extras.entries, Inert e.1) ∧ Plain o.indent ∧
      WellNested (compile newsletter c o) :=
  ⟨by decide, by decide, by decide,
    wellNested_compile newsletter _ _ (by decide) (by decide) (by decide)⟩

end

end MailComposer.Html
