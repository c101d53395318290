import MailComposer.Component.Basic
import MailComposer.Ids
import MailComposer.Number.Fixed

/-!
What can be asked for when a component is added: a kind, or a row of columns of equal width.
-/
namespace MailComposer

inductive Preset where
  | basic (kind : Kind)
  | columns (count : Nat)
deriving DecidableEq, Repr

namespace Preset

/-- `column` alone is the row of two. -/
def ofName? : String → Option Preset
  | "column" | "column2" => some (.columns 2)
  | "column3" => some (.columns 3)
  | "column4" => some (.columns 4)
  | name => (Kind.ofName? name).map .basic

def kind : Preset → Kind
  | .basic k => k
  | .columns _ => .column

/-- An equal share of the whole width. -/
def share (count : Nat) : String := (Binary64.nearest false 100 count).display ++ "%"

def columnRow (id : String) (count : Nat) : Component :=
  .column id Kind.column.defaultStyles (List.replicate count (share count))
    (List.replicate count [])

/-- The component under an id, with the content and the styles that it starts with. -/
def build (id : String) : Preset → Component
  | .columns count => columnRow id (max count 1)
  | .basic .column => columnRow id 2
  | .basic .container => .container id Kind.container.defaultStyles []
  | .basic .text => .leaf id Kind.text.defaultStyles (.text "Add your text here...")
  | .basic .heading => .leaf id Kind.heading.defaultStyles (.heading "Your Heading Here" 2)
  | .basic .image =>
    .leaf id Kind.image.defaultStyles
      (.image "https://via.placeholder.com/600x200?text=Image" "Image")
  | .basic .button => .leaf id Kind.button.defaultStyles (.button "Click Here" "#")
  | .basic .divider => .leaf id Kind.divider.defaultStyles .divider
  | .basic .spacer => .leaf id Kind.spacer.defaultStyles (.spacer "20px")
  | .basic .list =>
    .leaf id Kind.list.defaultStyles
      (.list .unordered ["List item 1", "List item 2", "List item 3"])

end Preset

end MailComposer
