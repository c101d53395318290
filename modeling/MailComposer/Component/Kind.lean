import MailComposer.Style.StyleMap

/-!
The kinds of components, and the styles that each kind has of itself.
-/
namespace MailComposer

inductive Kind where
  | text
  | heading
  | image
  | button
  | divider
  | spacer
  | list
  | column
  | container
deriving DecidableEq, Repr

namespace Kind

def all : List Kind :=
  [.text, .heading, .image, .button, .divider, .spacer, .list, .column, .container]

def name : Kind → String
  | .text => "text"
  | .heading => "heading"
  | .image => "image"
  | .button => "button"
  | .divider => "divider"
  | .spacer => "spacer"
  | .list => "list"
  | .column => "column"
  | .container => "container"

def ofName? (name : String) : Option Kind := all.find? (·.name == name)

/-- Whether other components can stand inside. -/
def acceptsChildren : Kind → Bool
  | .column | .container => true
  | _ => false

def defaults : Kind → List (Property × String)
  | .text =>
    [(.fontSize, "16px"), (.lineHeight, "1.5"), (.color, "#333333"), (.textAlign, "left"),
     (.paddingTop, "10px"), (.paddingRight, "0px"), (.paddingBottom, "10px"),
     (.paddingLeft, "0px"), (.marginTop, "0px"), (.marginBottom, "0px")]
  | .heading =>
    [(.fontSize, "28px"), (.fontWeight, "bold"), (.lineHeight, "1.3"), (.color, "#111111"),
     (.textAlign, "left"), (.paddingTop, "10px"), (.paddingRight, "0px"),
     (.paddingBottom, "10px"), (.paddingLeft, "0px"), (.marginTop, "0px"),
     (.marginBottom, "0px")]
  | .image =>
    [(.display, "block"), (.width, "100%"), (.maxWidth, "100%"), (.height, "auto"),
     (.textAlign, "center"), (.marginTop, "0px"), (.marginBottom, "0px"), (.border, "0")]
  | .button =>
    [(.fontSize, "16px"), (.fontWeight, "bold"), (.textAlign, "center"),
     (.textDecoration, "none"), (.color, "#ffffff"), (.backgroundColor, "#007bff"),
     (.display, "inline-block"), (.paddingTop, "12px"), (.paddingRight, "24px"),
     (.paddingBottom, "12px"), (.paddingLeft, "24px"), (.borderRadius, "4px")]
  | .divider =>
    [(.width, "100%"), (.marginTop, "20px"), (.marginBottom, "20px"), (.border, "none"),
     (.borderTop, "1px solid #e0e0e0")]
  | .spacer => [(.backgroundColor, "transparent")]
  | .list =>
    [(.fontSize, "16px"), (.lineHeight, "1.6"), (.color, "#333333"), (.marginTop, "10px"),
     (.marginBottom, "10px"), (.paddingLeft, "20px"), (.listStylePosition, "outside")]
  | .column => [(.width, "100%"), (.gap, "20px")]
  | .container =>
    [(.backgroundColor, "transparent"), (.paddingTop, "20px"), (.paddingRight, "20px"),
     (.paddingBottom, "20px"), (.paddingLeft, "20px")]

/-- The styles of a component of this kind that sets none. -/
def defaultStyles (k : Kind) : StyleMap := .ofList k.defaults

end Kind

end MailComposer
