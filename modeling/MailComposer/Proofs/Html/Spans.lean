import MailComposer.Html.Document

/-!
Where each piece of a compiled document comes from: a fixed stock of markup, data of the document,
or rich text that is passed through. Main statement: the pieces put together are the document.
-/
namespace MailComposer.Html

/-- All that the compiler writes of itself. -/
inductive Markup where
  | doctype | html | htmlEnd | head | headEnd | charset | viewport | compatible | title
  | titleEnd | body | bodyEnd | table | fullTable | spacedTable | borderless | unspaced
  | tableEnd | row | rowEnd | cell | centeredCell | plainCell | topAligned | cellEnd
  | paragraph | paragraphEnd | heading | headingEnd | division | divisionEnd | emptyDivisionEnd
  | imageSource | imageText | link | linkTarget | linkEnd | rule | unordered | unorderedEnd
  | ordered | orderedEnd | item | itemEnd | style | colon | semicolon | width | quote | tagEnd
  | voidTagEnd
deriving DecidableEq, Repr

namespace Markup

@[simp] def text : Markup → String
  | .doctype => "<!DOCTYPE html>"
  | .html => "<html>"
  | .htmlEnd => "</html>"
  | .head => "<head>"
  | .headEnd => "</head>"
  | .charset => "<meta charset=\"UTF-8\">"
  | .viewport => "<meta name=\"viewport\" content=\"width=device-width, initial-scale=1.0\">"
  | .compatible => "<meta http-equiv=\"X-UA-Compatible\" content=\"IE=edge\">"
  | .title => "<title>"
  | .titleEnd => "</title>"
  | .body => "<body"
  | .bodyEnd => "</body>"
  | .table => "<table role=\"presentation\""
  | .fullTable =>
    "<table role=\"presentation\" width=\"100%\" cellpadding=\"0\" cellspacing=\"0\" border=\"0\""
  | .spacedTable => "<table role=\"presentation\" width=\"100%\" cellpadding=\"0\" cellspacing=\""
  | .borderless => "\" border=\"0\""
  | .unspaced => " cellpadding=\"0\" cellspacing=\"0\" border=\"0\""
  | .tableEnd => "</table>"
  | .row => "<tr>"
  | .rowEnd => "</tr>"
  | .cell => "<td"
  | .centeredCell => "<td align=\"center\""
  | .plainCell => "<td>"
  | .topAligned => " valign=\"top\""
  | .cellEnd => "</td>"
  | .paragraph => "<p"
  | .paragraphEnd => "</p>"
  | .heading => "<h"
  | .headingEnd => "</h"
  | .division => "<div"
  | .divisionEnd => "</div>"
  | .emptyDivisionEnd => "></div>"
  | .imageSource => "<img src=\""
  | .imageText => "\" alt=\""
  | .link => "<a href=\""
  | .linkTarget => "\" target=\"_blank\""
  | .linkEnd => "</a>"
  | .rule => "<hr"
  | .unordered => "<ul"
  | .unorderedEnd => "</ul>"
  | .ordered => "<ol"
  | .orderedEnd => "</ol>"
  | .item => "<li>"
  | .itemEnd => "</li>"
  | .style => " style=\""
  | .colon => ": "
  | .semicolon => "; "
  | .width => " width=\""
  | .quote => "\""
  | .tagEnd => ">"
  | .voidTagEnd => " />"

end Markup

/-- A piece of a line: markup, the name of a style, a text that is escaped on its way out, a number,
or rich text as it is. -/
inductive Span where
  | markup (m : Markup)
  | name (text : String)
  | escaped (text : String)
  | figure (text : String)
  | rich (text : String)
deriving DecidableEq, Repr

namespace Span

/-- The characters of the piece in the document. -/
def text : Span → String
  | .markup m => m.text
  | .name t | .figure t | .rich t => t
  | .escaped t => escape t

/-- Pieces that are made from the document's data, rich text apart. -/
def isData : Span → Bool
  | .name _ | .escaped _ | .figure _ => true
  | .markup _ | .rich _ => false

end Span

@[simp] theorem text_markup (m : Markup) : (Span.markup m).text = m.text := rfl

@[simp] theorem text_name (t : String) : (Span.name t).text = t := rfl

@[simp] theorem text_escaped (t : String) : (Span.escaped t).text = escape t := rfl

@[simp] theorem text_figure (t : String) : (Span.figure t).text = t := rfl

@[simp] theorem text_rich (t : String) : (Span.rich t).text = t := rfl

def written (ss : List Span) : String := String.join (ss.map Span.text)

@[simp] theorem written_nil : written [] = "" := String.join_nil

@[simp] theorem written_cons (s : Span) (ss : List Span) :
    written (s :: ss) = s.text ++ written ss := String.join_cons

@[simp] theorem written_append (ss ts : List Span) :
    written (ss ++ ts) = written ss ++ written ts := by
  rw [written, List.map_append, String.join_append]
  rfl

structure SpanLine where
  depth : Nat
  spans : List Span
deriving DecidableEq, Repr

def SpanLine.line (l : SpanLine) : Line := ⟨l.depth, written l.spans⟩

def spanBlock (depth : Nat) (opening : List Span) (closing : List Span) (body : List SpanLine) :
    List SpanLine :=
  ⟨depth, opening⟩ :: (body ++ [⟨depth, closing⟩])

@[simp] theorem map_line_spanBlock (depth : Nat) (opening closing : List Span)
    (body : List SpanLine) :
    (spanBlock depth opening closing body).map SpanLine.line =
      block depth (written opening) (written closing) (body.map SpanLine.line) := by
  rw [spanBlock, block, List.map_cons, List.map_append]
  rfl

def declarationSpans (d : String × String) : List Span :=
  [.name d.1, .markup .colon, .escaped (Text.trim d.2)]

def separated : List (String × String) → List Span
  | [] => []
  | [d] => declarationSpans d
  | d :: rest => declarationSpans d ++ .markup .semicolon :: separated rest

def styledSpans (ds : List (String × String)) : List Span :=
  match ds.filter fun d => isEmitted d.2 with
  | [] => []
  | d :: ds => .markup .style :: (separated (d :: ds) ++ [.markup .quote])

def widthSpans (p : UnitPolicy) (value : String) : List Span :=
  match Measure.ofText? p value with
  | none => []
  | some m =>
    [.markup .width, .figure (if m.unit = "%" then m.text else m.magnitude.display), .markup .quote]

private theorem written_declarationSpans (d : String × String) :
    written (declarationSpans d) = declaration d := by
  simp [declarationSpans, declaration, String.append_assoc]

private theorem written_separated (ds : List (String × String)) :
    written (separated ds) = "; ".intercalate (ds.map declaration) := by
  induction ds with
  | nil => rfl
  | cons d ds ih =>
    cases ds with
    | nil => rw [separated, written_declarationSpans, List.map_singleton,
        String.intercalate_singleton]
    | cons e ds =>
      rw [List.map_cons, List.map_cons, String.intercalate_cons_cons, ← List.map_cons, ← ih]
      simp [separated, written_declarationSpans, String.append_assoc]

theorem intercalate_declaration_ne_empty (d : String × String) (ds : List (String × String)) :
    "; ".intercalate ((d :: ds).map declaration) ≠ "" := by
  have hd : declaration d ≠ "" := by
    intro h
    rw [declaration, String.append_eq_empty_iff, String.append_eq_empty_iff] at h
    exact absurd h.1.2 (by decide)
  rw [List.map_cons]
  cases ds with
  | nil => rwa [List.map_nil, String.intercalate_singleton]
  | cons e ds =>
    rw [List.map_cons, String.intercalate_cons_cons, String.append_assoc]
    exact fun h => hd (String.append_eq_empty_iff.mp h).1

theorem written_styledSpans (ds : List (String × String)) :
    written (styledSpans ds) = styled ds := by
  unfold styledSpans styled inlineStyle styleAttribute
  cases ds.filter fun d => isEmitted d.2 with
  | nil => rfl
  | cons d ds =>
    rw [if_neg (intercalate_declaration_ne_empty d ds)]
    simp [written_separated, String.append_assoc]

theorem written_widthSpans (p : UnitPolicy) (value : String) :
    written (widthSpans p value) = widthAttribute p value := by
  unfold widthSpans widthAttribute
  cases Measure.ofText? p value with
  | none => rfl
  | some m => simp [String.append_assoc]

/-- A tag with a style attribute. -/
def tagSpans (before : List Span) (ds : List (String × String)) (after : List Span) : List Span :=
  before ++ (styledSpans ds ++ after)

@[simp] theorem written_tagSpans (before : List Span) (ds : List (String × String))
    (after : List Span) :
    written (tagSpans before ds after) = written before ++ styled ds ++ written after := by
  rw [tagSpans, written_append, written_append, written_styledSpans, String.append_assoc]

def paragraphSpans (depth : Nat) (s : StyleMap) (content : String) : List SpanLine :=
  [⟨depth, tagSpans [.markup .paragraph] s.declarations
    [.markup .tagEnd, .rich content, .markup .paragraphEnd]⟩]

def headingSpans (depth : Nat) (s : StyleMap) (content : String) (level : UInt8) :
    List SpanLine :=
  let digit := toString (Leaf.clampLevel level).toNat
  [⟨depth, tagSpans [.markup .heading, .figure digit] s.declarations
    [.markup .tagEnd, .rich content, .markup .headingEnd, .figure digit, .markup .tagEnd]⟩]

def imageSpans (depth : Nat) (s : StyleMap) (src alt : String) : List SpanLine :=
  spanBlock depth (tagSpans [.markup .division] (imageWrapper s).declarations [.markup .tagEnd])
    [.markup .divisionEnd]
    [⟨depth + 1, tagSpans
      [.markup .imageSource, .escaped src, .markup .imageText, .escaped alt, .markup .quote]
      (imageStyles s).declarations [.markup .voidTagEnd]⟩]

def buttonSpans (depth : Nat) (s : StyleMap) (label href : String) : List SpanLine :=
  spanBlock depth
    (tagSpans [.markup .division] [("text-align", buttonAlignment s)] [.markup .tagEnd])
    [.markup .divisionEnd]
    [⟨depth + 1, tagSpans [.markup .link, .escaped href, .markup .linkTarget]
      (s.erase .textAlign).declarations [.markup .tagEnd, .escaped label, .markup .linkEnd]⟩]

def dividerSpans (depth : Nat) (s : StyleMap) : List SpanLine :=
  [⟨depth, tagSpans [.markup .rule] s.declarations [.markup .voidTagEnd]⟩]

def spacerSpans (depth : Nat) (s : StyleMap) (height : String) : List SpanLine :=
  let height := if Text.isAllBlank height then "0px" else height
  [⟨depth, tagSpans [.markup .division] ((s.set .height height).set .lineHeight height).declarations
    [.markup .emptyDivisionEnd]⟩]

def listOpening : ListKind → Span
  | .unordered => .markup .unordered
  | .ordered => .markup .ordered

def listClosing : ListKind → Span
  | .unordered => .markup .unorderedEnd
  | .ordered => .markup .orderedEnd

def listSpans (depth : Nat) (s : StyleMap) (kind : ListKind) (items : List String) :
    List SpanLine :=
  spanBlock depth (tagSpans [listOpening kind] (listStyles s kind).declarations [.markup .tagEnd])
    [listClosing kind]
    (items.map fun item => ⟨depth + 1, [.markup .item, .escaped item, .markup .itemEnd]⟩)

def leafSpans (depth : Nat) (s : StyleMap) : Leaf → List SpanLine
  | .text content => paragraphSpans depth s content
  | .heading content level => headingSpans depth s content level
  | .image src alt => imageSpans depth s src alt
  | .button label href => buttonSpans depth s label href
  | .divider => dividerSpans depth s
  | .spacer height => spacerSpans depth s height
  | .list kind items => listSpans depth s kind items

private theorem leafSpans_line (depth : Nat) (s : StyleMap) (l : Leaf) :
    (leafSpans depth s l).map SpanLine.line = leaf depth s l := by
  cases l with
  | text content =>
    simp [leafSpans, paragraphSpans, leaf, paragraph, styledBy, SpanLine.line, String.append_assoc]
  | heading content level =>
    have opening (t : String) : "<" ++ ("h" ++ t) = "<h" ++ t := by
      rw [← String.append_assoc]
      rfl
    have closing (t : String) : "</" ++ ("h" ++ t) = "</h" ++ t := by
      rw [← String.append_assoc]
      rfl
    simp [leafSpans, headingSpans, leaf, heading, styledBy, SpanLine.line, String.append_assoc,
      opening, closing]
  | image src alt =>
    simp [leafSpans, imageSpans, leaf, image, styledBy, SpanLine.line, String.append_assoc]
  | button label href =>
    simp [leafSpans, buttonSpans, leaf, button, styledBy, SpanLine.line, String.append_assoc]
  | divider =>
    simp [leafSpans, dividerSpans, leaf, divider, styledBy, SpanLine.line, String.append_assoc]
  | spacer height =>
    simp [leafSpans, spacerSpans, leaf, spacer, styledBy, SpanLine.line, String.append_assoc]
  | list kind items =>
    have entry : (SpanLine.line ∘ fun item =>
        ⟨depth + 1, [.markup .item, .escaped item, .markup .itemEnd]⟩) =
          fun item => ⟨depth + 1, "<li>" ++ escape item ++ "</li>"⟩ := by
      funext item
      simp [SpanLine.line, String.append_assoc]
    rw [leafSpans, listSpans, map_line_spanBlock, List.map_map, entry]
    cases kind <;> simp [leaf, list, styledBy, ListKind.tag, listOpening, listClosing]

def cellSpans (width : String) : List Span :=
  tagSpans (.markup .cell :: (widthSpans .percentSize width ++ [.markup .topAligned]))
    [("width", width), ("vertical-align", "top")] [.markup .tagEnd]

def cellsSpans (depth : Nat) : List String → List (List SpanLine) → List SpanLine
  | [], _ => []
  | width :: widths, contents =>
    spanBlock depth (cellSpans width) [.markup .cellEnd] (contents.head?.getD []) ++
      cellsSpans depth widths contents.tail

def columnsSpans (depth : Nat) (s : StyleMap) (widths : List String)
    (contents : List (List SpanLine)) : List SpanLine :=
  spanBlock depth
    (tagSpans [.markup .spacedTable, .figure (toString (columnGap s)), .markup .borderless]
      (s.erase .gap).declarations [.markup .tagEnd])
    [.markup .tableEnd]
    (spanBlock (depth + 1) [.markup .row] [.markup .rowEnd]
      (cellsSpans (depth + 2) widths contents))

def containerSpans (depth : Nat) (s : StyleMap) (body : List SpanLine) : List SpanLine :=
  spanBlock depth (tagSpans [.markup .division] s.declarations [.markup .tagEnd])
    [.markup .divisionEnd] body

mutual

def fragmentSpans (depth : Nat) : Component → List SpanLine
  | .leaf id s l => leafSpans depth (Component.leaf id s l).resolved l
  | .column id s widths contents =>
    columnsSpans depth (Component.column id s widths []).resolved widths
      (fragmentCellsSpans (depth + 3) contents)
  | .container id s children =>
    containerSpans depth (Component.container id s []).resolved
      (fragmentListSpans (depth + 1) children)

def fragmentListSpans (depth : Nat) : List Component → List SpanLine
  | [] => []
  | c :: rest => fragmentSpans depth c ++ fragmentListSpans depth rest

def fragmentCellsSpans (depth : Nat) : List (List Component) → List (List SpanLine)
  | [] => []
  | cs :: rest => fragmentListSpans depth cs :: fragmentCellsSpans depth rest

end

private theorem cellsSpans_line (depth : Nat) (widths : List String)
    (contents : List (List SpanLine)) : (cellsSpans depth widths contents).map SpanLine.line =
      cells depth widths (contents.map fun ls => ls.map SpanLine.line) := by
  induction widths generalizing contents with
  | nil => rfl
  | cons width widths ih =>
    have opening : written (cellSpans width) = cellOpening width := by
      simp [cellSpans, cellOpening, written_widthSpans, String.append_assoc]
    rw [cellsSpans, cells, List.map_append, map_line_spanBlock, ih, opening]
    cases contents with
    | nil => simp
    | cons ls contents => simp

private theorem columnsSpans_line (depth : Nat) (s : StyleMap) (widths : List String)
    (contents : List (List SpanLine)) :
    (columnsSpans depth s widths contents).map SpanLine.line =
      columns depth s widths (contents.map fun ls => ls.map SpanLine.line) := by
  simp [columnsSpans, columns, cellsSpans_line, styledBy, String.append_assoc]

private theorem containerSpans_line (depth : Nat) (s : StyleMap) (body : List SpanLine) :
    (containerSpans depth s body).map SpanLine.line =
      container depth s (body.map SpanLine.line) := by
  simp [containerSpans, container, styledBy, String.append_assoc]

mutual

private theorem fragmentSpans_line : ∀ (depth : Nat) (c : Component),
    (fragmentSpans depth c).map SpanLine.line = fragment depth c
  | depth, .leaf id s l => leafSpans_line depth _ l
  | depth, .column id s widths contents => by
    rw [fragmentSpans, columnsSpans_line, fragmentCellsSpans_line]
    rfl
  | depth, .container id s children => by
    rw [fragmentSpans, containerSpans_line, fragmentListSpans_line]
    rfl

private theorem fragmentListSpans_line : ∀ (depth : Nat) (cs : List Component),
    (fragmentListSpans depth cs).map SpanLine.line = fragmentList depth cs
  | _, [] => rfl
  | depth, c :: rest => by
    rw [fragmentListSpans, List.map_append, fragmentSpans_line, fragmentListSpans_line]
    rfl

private theorem fragmentCellsSpans_line : ∀ (depth : Nat) (css : List (List Component)),
    (fragmentCellsSpans depth css).map (fun ls => ls.map SpanLine.line) = fragmentCells depth css
  | _, [] => rfl
  | depth, cs :: rest => by
    rw [fragmentCellsSpans, List.map_cons, fragmentListSpans_line, fragmentCellsSpans_line]
    rfl

end

def headSpans (title : String) : List SpanLine :=
  spanBlock 1 [.markup .head] [.markup .headEnd] [
    ⟨2, [.markup .charset]⟩,
    ⟨2, [.markup .viewport]⟩,
    ⟨2, [.markup .compatible]⟩,
    ⟨2, [.markup .title, .escaped title, .markup .titleEnd]⟩]

def outerTableSpans (c : Canvas) : List Span :=
  tagSpans [.markup .fullTable] [("background-color", c.backgroundColor)] [.markup .tagEnd]

def innerTableSpans (c : Canvas) : List Span :=
  tagSpans (.markup .table :: (widthSpans .size c.contentWidth ++ [.markup .unspaced]))
    [("width", "100%"), ("max-width", c.maxWidth),
      ("background-color", c.contentBackgroundColor), ("font-family", c.fontFamily),
      ("font-size", c.fontSize), ("line-height", c.lineHeight), ("color", c.textColor)]
    [.markup .tagEnd]

def bodySpans (c : Canvas) (content : List SpanLine) : List SpanLine :=
  spanBlock 1
    (tagSpans [.markup .body]
      [("margin", "0"), ("padding", "0"), ("background-color", c.backgroundColor)]
      [.markup .tagEnd])
    [.markup .bodyEnd] <|
    spanBlock 2 (outerTableSpans c) [.markup .tableEnd] <|
      spanBlock 3 [.markup .row] [.markup .rowEnd] <|
        spanBlock 4 (tagSpans [.markup .centeredCell] [("padding", c.padding)] [.markup .tagEnd])
          [.markup .cellEnd] <|
          spanBlock 5 (innerTableSpans c) [.markup .tableEnd] <|
            spanBlock 6 [.markup .row] [.markup .rowEnd] <|
              spanBlock 7 [.markup .plainCell] [.markup .cellEnd] content

def documentSpans (components : List Component) (c : Canvas) (title : String) : List SpanLine :=
  ⟨0, [.markup .doctype]⟩ ::
    spanBlock 0 [.markup .html] [.markup .htmlEnd]
      (headSpans title ++ bodySpans c (fragmentListSpans contentDepth components))

private theorem headSpans_line (title : String) :
    (headSpans title).map SpanLine.line = head title := by
  simp [headSpans, head, SpanLine.line, String.append_assoc]

private theorem written_outerTableSpans (c : Canvas) :
    written (outerTableSpans c) = outerTable c := by
  unfold outerTableSpans outerTable
  simp only [written_tagSpans, written_cons, written_nil, text_markup, Markup.text,
    String.append_empty]

private theorem written_innerTableSpans (c : Canvas) :
    written (innerTableSpans c) = innerTable c := by
  unfold innerTableSpans innerTable
  simp only [written_tagSpans, written_cons, written_nil, written_append, written_widthSpans,
    text_markup, Markup.text, String.append_empty, String.append_assoc]

private theorem bodySpans_line (c : Canvas) (content : List SpanLine) :
    (bodySpans c content).map SpanLine.line = body c (content.map SpanLine.line) := by
  unfold bodySpans body bodyOpening cellAround
  simp only [map_line_spanBlock, written_outerTableSpans, written_innerTableSpans,
    written_tagSpans, written_cons, written_nil, text_markup, Markup.text, String.append_empty]

/-- The pieces of a document, line by line. -/
theorem documentSpans_line (components : List Component) (c : Canvas) (title : String) :
    (documentSpans components c title).map SpanLine.line = document components c title := by
  rw [documentSpans, List.map_cons, map_line_spanBlock, List.map_append, headSpans_line,
    bodySpans_line, fragmentListSpans_line, document]
  simp [SpanLine.line]

end MailComposer.Html
