import MailComposer.Html.Document

/-!
A document written in place: all lines go into one text, with a depth that is raised before the body
of a block and lowered behind it. Main statement: the text comes out as the lines of the document,
and the depth as it was.
-/
namespace MailComposer.Html

/-- The text so far, and the depth at which the next line stands. -/
structure Sheet where
  options : Options
  depth : Nat
  text : String
deriving DecidableEq, Repr

def Sheet.blank (o : Options) : Sheet := ⟨o, 0, ""⟩

abbrev Writer := StateM Sheet Unit

namespace Writer

def add (t : String) : Writer := modify fun s => { s with text := s.text ++ t }

def addIndents (t : String) : Nat → Writer
  | 0 => pure ()
  | n + 1 => do
    add t
    addIndents t n

def addLine (t : String) : Writer := do
  let s ← get
  if s.options.pretty then addIndents s.options.indent s.depth
  add t
  if s.options.pretty then add "\n"

def indent : Writer := modify fun s => { s with depth := s.depth + 1 }

/-- At depth zero there is nothing to take back. -/
def dedent : Writer := modify fun s => { s with depth := s.depth - 1 }

def block (opening closing : String) (body : Writer) : Writer := do
  addLine opening
  indent
  body
  dedent
  addLine closing

def addLines : List String → Writer
  | [] => pure ()
  | t :: ts => do
    addLine t
    addLines ts

def image (s : StyleMap) (src alt : String) : Writer :=
  block ("<div" ++ styledBy (imageWrapper s) ++ ">") "</div>" <|
    addLine ("<img src=\"" ++ escape src ++ "\" alt=\"" ++ escape alt ++ "\"" ++
      styledBy (imageStyles s) ++ " />")

def button (s : StyleMap) (label href : String) : Writer :=
  block ("<div" ++ styled [("text-align", buttonAlignment s)] ++ ">") "</div>" <|
    addLine ("<a href=\"" ++ escape href ++ "\" target=\"_blank\"" ++
      styledBy (s.erase .textAlign) ++ ">" ++ escape label ++ "</a>")

def list (s : StyleMap) (kind : ListKind) (items : List String) : Writer :=
  block ("<" ++ kind.tag ++ styledBy (listStyles s kind) ++ ">") ("</" ++ kind.tag ++ ">") <|
    addLines (items.map fun item => "<li>" ++ escape item ++ "</li>")

def leaf (s : StyleMap) : Leaf → Writer
  | .text content => addLine ("<p" ++ styledBy s ++ ">" ++ content ++ "</p>")
  | .heading content level =>
    let tag := "h" ++ toString (Leaf.clampLevel level).toNat
    addLine ("<" ++ tag ++ styledBy s ++ ">" ++ content ++ "</" ++ tag ++ ">")
  | .image src alt => image s src alt
  | .button label href => button s label href
  | .divider => addLine ("<hr" ++ styledBy s ++ " />")
  | .spacer height =>
    let height := if Text.isAllBlank height then "0px" else height
    addLine ("<div" ++ styledBy ((s.set .height height).set .lineHeight height) ++ "></div>")
  | .list kind items => list s kind items

/-- The cells from an index on, each with what is to be written at its index, if anything is. -/
def cells (contents : List Writer) (index : Nat) : List String → Writer
  | [] => pure ()
  | width :: widths => do
    block (cellOpening width) "</td>" (contents[index]?.getD (pure ()))
    cells contents (index + 1) widths

def columns (s : StyleMap) (widths : List String) (contents : List Writer) : Writer :=
  block
    ("<table role=\"presentation\" width=\"100%\" cellpadding=\"0\" cellspacing=\"" ++
      toString (columnGap s) ++ "\" border=\"0\"" ++ styledBy (s.erase .gap) ++ ">")
    "</table>"
    (block "<tr>" "</tr>" (cells contents 0 widths))

mutual

def component : Component → Writer
  | .leaf id s l => leaf (Component.leaf id s l).resolved l
  | .column id s widths contents =>
    columns (Component.column id s widths []).resolved widths (componentCells contents)
  | .container id s children =>
    block ("<div" ++ styledBy (Component.container id s []).resolved ++ ">") "</div>"
      (components children)

def components : List Component → Writer
  | [] => pure ()
  | c :: rest => do
    component c
    components rest

def componentCells : List (List Component) → List Writer
  | [] => []
  | cs :: rest => components cs :: componentCells rest

end

def head : Writer := do
  addLine "<head>"
  indent
  addLine "<meta charset=\"UTF-8\">"
  addLine "<meta name=\"viewport\" content=\"width=device-width, initial-scale=1.0\">"
  addLine "<meta http-equiv=\"X-UA-Compatible\" content=\"IE=edge\">"
  let s ← get
  addLine ("<title>" ++ escape s.options.title ++ "</title>")
  dedent
  addLine "</head>"

def skeleton (c : Canvas) (content : Writer) : Writer :=
  block (outerTable c) "</table>" <|
    block "<tr>" "</tr>" <|
      block (cellAround c) "</td>" <|
        block (innerTable c) "</table>" <|
          block "<tr>" "</tr>" <|
            block "<td>" "</td>" content

def document (cs : List Component) (c : Canvas) : Writer := do
  addLine "<!DOCTYPE html>"
  addLine "<html>"
  indent
  head
  block (bodyOpening c) "</body>" (skeleton c (components cs))
  dedent
  addLine "</html>"

end Writer

def compileInPlace (cs : List Component) (c : Canvas) (o : Options) : Sheet :=
  ((Writer.document cs c).run (.blank o)).2

@[simp] theorem render_nil (o : Options) : render o [] = "" := String.join_nil

theorem render_cons (o : Options) (l : Line) (ls : List Line) :
    render o (l :: ls) = l.render o ++ render o ls := String.join_cons

theorem render_append (o : Options) (ls ks : List Line) :
    render o (ls ++ ks) = render o ls ++ render o ks := by
  rw [render, List.map_append, String.join_append]
  rfl

/-- Started at the first depth behind any text, the writer adds the lines and stops at the other
depth. -/
def Writes (o : Options) (w : Writer) (start : Nat) (ls : List Line) (stop : Nat) : Prop :=
  ∀ text, w.run ⟨o, start, text⟩ = ((), ⟨o, stop, text ++ render o ls⟩)

section
variable {o : Options} {v w : Writer} {i j k : Nat} {ls ks : List Line}

private theorem run_addIndents (t : String) (n : Nat) (s : Sheet) :
    (Writer.addIndents t n).run s =
      ((), { s with text := s.text ++ String.join (List.replicate n t) }) := by
  induction n generalizing s with
  | zero =>
    rw [List.replicate_zero, String.join_nil, String.append_empty]
    rfl
  | succ n ih =>
    have step : (Writer.addIndents t (n + 1)).run s =
        (Writer.addIndents t n).run { s with text := s.text ++ t } := rfl
    rw [step, ih, List.replicate_succ, String.join_cons, ← String.append_assoc]

/-- A writer that changes no more than the depth. -/
private theorem writes_depth (h : ∀ text, w.run ⟨o, i, text⟩ = ((), ⟨o, j, text⟩)) :
    Writes o w i [] j := by
  intro text
  rw [render_nil, String.append_empty]
  exact h text

private theorem writes_nothing : Writes o (pure ()) i [] i := writes_depth fun _ => rfl

private theorem writes_indent : Writes o Writer.indent i [] (i + 1) := writes_depth fun _ => rfl

private theorem writes_dedent : Writes o Writer.dedent (i + 1) [] i := writes_depth fun _ => rfl

private theorem writes_line (t : String) : Writes o (Writer.addLine t) i [⟨i, t⟩] i := by
  intro text
  obtain ⟨pretty, indent, title⟩ := o
  rw [render_cons, render_nil, String.append_empty]
  cases pretty with
  | false => rfl
  | true =>
    -- The indents are a loop of their own, so the line is run in two pieces.
    have pieces : (Writer.addLine t).run ⟨⟨true, indent, title⟩, i, text⟩ =
        let indented := (Writer.addIndents indent i).run ⟨⟨true, indent, title⟩, i, text⟩
        ((), { indented.2 with text := indented.2.text ++ t ++ "\n" }) := rfl
    rw [pieces, run_addIndents, Line.render, if_pos rfl]
    simp only [String.append_assoc]

private theorem Writes.seq (hv : Writes o v i ls j) (hw : Writes o w j ks k) :
    Writes o (do v; w) i (ls ++ ks) k := by
  intro text
  rw [StateT.run_bind, hv text]
  exact (hw _).trans (by rw [render_append, String.append_assoc])

private theorem writes_get {f : Sheet → Writer} (h : ∀ s, s.options = o → Writes o (f s) i ls j) :
    Writes o (do f (← get)) i ls j :=
  fun text => h ⟨o, i, text⟩ rfl text

/-- Behind a block the depth is that of its opening line again. -/
theorem Writes.block (opening closing : String) (h : Writes o w (i + 1) ls (i + 1)) :
    Writes o (Writer.block opening closing w) i (Html.block i opening closing ls) i := by
  have behind : Writes o (do Writer.dedent; Writer.addLine closing) (i + 1) [⟨i, closing⟩] i :=
    writes_dedent.seq (writes_line closing)
  exact (writes_line opening).seq (writes_indent.seq (h.seq behind))

example : ((Writer.block "<div>" "</div>" (Writer.addLine "<p>hi</p>")).run (.blank {})).2 =
    ⟨{}, 0, "<div>\n  <p>hi</p>\n</div>\n"⟩ := by decide

private theorem writes_lines (ts : List String) :
    Writes o (Writer.addLines ts) i (ts.map fun t => ⟨i, t⟩) i := by
  induction ts with
  | nil => exact writes_nothing
  | cons t ts ih => exact (writes_line t).seq ih

private theorem writes_leaf (s : StyleMap) (l : Leaf) :
    Writes o (Writer.leaf s l) i (leaf i s l) i := by
  cases l with
  | text content => exact writes_line _
  | heading content level => exact writes_line _
  | image src alt => exact (writes_line _).block _ _
  | button label href => exact (writes_line _).block _ _
  | divider => exact writes_line _
  | spacer height => exact writes_line _
  | list kind items =>
    have entries := writes_lines (o := o) (i := i + 1)
      (items.map fun item => "<li>" ++ escape item ++ "</li>")
    rw [List.map_map] at entries
    exact entries.block _ _

/-- The loop over the widths reads at its index what the lines have in order. -/
private theorem writes_cells {ws : List Writer} {contents : List (List Line)}
    (h : ∀ n : Nat, Writes o (ws[n]?.getD (pure ())) (i + 1) (contents[n]?.getD []) (i + 1))
    (widths : List String) (n : Nat) :
    Writes o (Writer.cells ws n widths) i (cells i widths (contents.drop n)) i := by
  induction widths generalizing n with
  | nil => exact writes_nothing
  | cons width widths ih =>
    rw [Html.cells, List.head?_drop, List.tail_drop]
    exact ((h n).block (cellOpening width) "</td>").seq (ih (n + 1))

mutual

/-- A component leaves the depth as it is, however deep it is nested. -/
theorem writes_component : ∀ (c : Component) (i : Nat),
    Writes o (Writer.component c) i (fragment i c) i
  | .leaf _ _ l, _ => writes_leaf _ l
  | .column _ _ widths contents, i =>
    have row := writes_cells (writes_componentCells contents (i + 3)) widths 0
    (row.block "<tr>" "</tr>").block _ _
  | .container _ _ children, i => (writes_components children (i + 1)).block _ _

private theorem writes_components : ∀ (cs : List Component) (i : Nat),
    Writes o (Writer.components cs) i (fragmentList i cs) i
  | [], _ => writes_nothing
  | c :: rest, i => (writes_component c i).seq (writes_components rest i)

private theorem writes_componentCells : ∀ (contents : List (List Component)) (i n : Nat),
    Writes o ((Writer.componentCells contents)[n]?.getD (pure ())) i
      ((fragmentCells i contents)[n]?.getD []) i
  | [], _, _ => writes_nothing
  | cs :: _, i, 0 => writes_components cs i
  | _ :: rest, i, n + 1 => writes_componentCells rest i n

end

private theorem writes_head : Writes o Writer.head 1 (head o.title) 1 := by
  have title : Writes o (do
      let s ← get
      Writer.addLine ("<title>" ++ escape s.options.title ++ "</title>")
      Writer.dedent
      Writer.addLine "</head>")
      2 [⟨2, "<title>" ++ escape o.title ++ "</title>"⟩, ⟨1, "</head>"⟩] 1 :=
    writes_get fun s hs => hs ▸ (writes_line _).seq (writes_dedent.seq (writes_line _))
  exact (writes_line _).seq (writes_indent.seq
    ((writes_line _).seq ((writes_line _).seq ((writes_line _).seq title))))

private theorem writes_skeleton (c : Canvas) (h : Writes o w 8 ls 8) :
    Writes o (Writer.block (bodyOpening c) "</body>" (Writer.skeleton c w)) 1 (body c ls) 1 :=
  ((((((h.block "<td>" "</td>").block "<tr>" "</tr>").block (innerTable c) "</table>").block
    (cellAround c) "</td>").block "<tr>" "</tr>").block (outerTable c) "</table>").block
    (bodyOpening c) "</body>"

theorem writes_document (cs : List Component) (c : Canvas) :
    Writes o (Writer.document cs c) 0 (document cs c o.title) 0 := by
  have behind : Writes o (do Writer.dedent; Writer.addLine "</html>") 1 [⟨0, "</html>"⟩] 0 :=
    writes_dedent.seq (writes_line _)
  have content := writes_skeleton c (writes_components (o := o) cs contentDepth)
  have page := writes_head.seq (content.seq behind)
  rw [document, Html.block, List.append_assoc]
  exact (writes_line _).seq ((writes_line _).seq (writes_indent.seq page))

theorem compileInPlace_eq (cs : List Component) (c : Canvas) (o : Options) :
    compileInPlace cs c o = { Sheet.blank o with text := compile cs c o } := by
  rw [compileInPlace, Sheet.blank, writes_document cs c, String.empty_append]
  rfl

end

end MailComposer.Html
