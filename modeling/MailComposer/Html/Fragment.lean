import MailComposer.Component.Styles
import MailComposer.Html.InlineStyle
import MailComposer.Html.Layout
import MailComposer.Measure

/-!
The lines of a component. They depend on the component and on the depth at which it stands, and on
nothing around it.
-/
namespace MailComposer.Html

/-- A share of the width keeps its sign, a length loses its unit; `auto` gives no attribute. -/
def widthAttribute (p : UnitPolicy) (value : String) : String :=
  match Measure.ofText? p value with
  | none => ""
  | some m => " width=\"" ++ (if m.unit = "%" then m.text else m.magnitude.display) ++ "\""

def styledBy (s : StyleMap) : String := styled s.declarations

def paragraph (depth : Nat) (s : StyleMap) (content : String) : List Line :=
  [⟨depth, "<p" ++ styledBy s ++ ">" ++ content ++ "</p>"⟩]

def heading (depth : Nat) (s : StyleMap) (content : String) (level : UInt8) : List Line :=
  let tag := "h" ++ toString (Leaf.clampLevel level).toNat
  [⟨depth, "<" ++ tag ++ styledBy s ++ ">" ++ content ++ "</" ++ tag ++ ">"⟩]

/-- How an image stands: by the text alignment around it, and by its margins where it is a block. -/
def imageMargins (alignment : String) : String × String :=
  if alignment = "left" then ("0", "auto")
  else if alignment = "right" then ("auto", "0")
  else ("auto", "auto")

def imageAlignment (s : StyleMap) : String := (s.nonEmpty? .textAlign).getD "center"

def imageWrapper (s : StyleMap) : StyleMap :=
  .ofList ((.textAlign, imageAlignment s) :: s.known.entries.filter fun e => e.1.isMargin)

def imageStyles (s : StyleMap) : StyleMap :=
  let own := s.restrict fun p => !p.isMargin && p ≠ .textAlign
  if own.get? .display = some "block" then
    let (left, right) := imageMargins (imageAlignment s)
    (own.set .marginLeft left).set .marginRight right
  else own

def image (depth : Nat) (s : StyleMap) (src alt : String) : List Line :=
  block depth ("<div" ++ styledBy (imageWrapper s) ++ ">") "</div>"
    [⟨depth + 1, "<img src=\"" ++ escape src ++ "\" alt=\"" ++ escape alt ++ "\"" ++
      styledBy (imageStyles s) ++ " />"⟩]

def buttonAlignment (s : StyleMap) : String :=
  ((s.get? .textAlign).filter fun v => !Text.isAllBlank v).getD "center"

def button (depth : Nat) (s : StyleMap) (label href : String) : List Line :=
  block depth ("<div" ++ styled [("text-align", buttonAlignment s)] ++ ">") "</div>"
    [⟨depth + 1, "<a href=\"" ++ escape href ++ "\" target=\"_blank\"" ++
      styledBy (s.erase .textAlign) ++ ">" ++ escape label ++ "</a>"⟩]

def divider (depth : Nat) (s : StyleMap) : List Line := [⟨depth, "<hr" ++ styledBy s ++ " />"⟩]

def spacer (depth : Nat) (s : StyleMap) (height : String) : List Line :=
  let height := if Text.isAllBlank height then "0px" else height
  [⟨depth, "<div" ++ styledBy ((s.set .height height).set .lineHeight height) ++ "></div>"⟩]

def listStyles (s : StyleMap) (kind : ListKind) : StyleMap :=
  if (s.nonEmpty? .listStyleType).isNone then s.set .listStyleType kind.marker else s

def list (depth : Nat) (s : StyleMap) (kind : ListKind) (items : List String) : List Line :=
  block depth ("<" ++ kind.tag ++ styledBy (listStyles s kind) ++ ">") ("</" ++ kind.tag ++ ">")
    (items.map fun item => ⟨depth + 1, "<li>" ++ escape item ++ "</li>"⟩)

def leaf (depth : Nat) (s : StyleMap) : Leaf → List Line
  | .text content => paragraph depth s content
  | .heading content level => heading depth s content level
  | .image src alt => image depth s src alt
  | .button label href => button depth s label href
  | .divider => divider depth s
  | .spacer height => spacer depth s height
  | .list kind items => list depth s kind items

/-- The space between columns in whole pixels. -/
def columnGap (s : StyleMap) : Nat :=
  match s.get? .gap with
  | none => 0
  | some gap => (Measure.ofText .spacing gap).magnitude.toWhole (UInt32.size - 1)

def cellOpening (width : String) : String :=
  "<td" ++ widthAttribute .percentSize width ++ " valign=\"top\"" ++
    styled [("width", width), ("vertical-align", "top")] ++ ">"

/-- A cell for each width, with the lines at its position, if there are any. -/
def cells (depth : Nat) : List String → List (List Line) → List Line
  | [], _ => []
  | width :: widths, contents =>
    block depth (cellOpening width) "</td>" (contents.head?.getD []) ++
      cells depth widths contents.tail

def columns (depth : Nat) (s : StyleMap) (widths : List String) (contents : List (List Line)) :
    List Line :=
  block depth
    ("<table role=\"presentation\" width=\"100%\" cellpadding=\"0\" cellspacing=\"" ++
      toString (columnGap s) ++ "\" border=\"0\"" ++ styledBy (s.erase .gap) ++ ">")
    "</table>"
    (block (depth + 1) "<tr>" "</tr>" (cells (depth + 2) widths contents))

def container (depth : Nat) (s : StyleMap) (body : List Line) : List Line :=
  block depth ("<div" ++ styledBy s ++ ">") "</div>" body

mutual

def fragment (depth : Nat) : Component → List Line
  | .leaf id s l => leaf depth (Component.leaf id s l).resolved l
  | .column id s widths contents =>
    columns depth (Component.column id s widths []).resolved widths
      (fragmentCells (depth + 3) contents)
  | .container id s children =>
    container depth (Component.container id s []).resolved (fragmentList (depth + 1) children)

def fragmentList (depth : Nat) : List Component → List Line
  | [] => []
  | c :: rest => fragment depth c ++ fragmentList depth rest

def fragmentCells (depth : Nat) : List (List Component) → List (List Line)
  | [] => []
  | cs :: rest => fragmentList depth cs :: fragmentCells depth rest

end

end MailComposer.Html
