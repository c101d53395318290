import MailComposer.Component.Styles
import MailComposer.Measure

/-!
The control for the four sides of a padding or a margin. It shows one value while the sides agree,
and writes all that it changes in one patch.
-/
namespace MailComposer.Spacing

inductive Group where
  | padding
  | margin
deriving DecidableEq, Repr

inductive Side where
  | top
  | right
  | bottom
  | left
deriving DecidableEq, Repr

inductive Mode where
  | unified
  | advanced
deriving DecidableEq, Repr

def sides : List Side := [.top, .right, .bottom, .left]

def property : Group → Side → Property
  | .padding, .top => .paddingTop
  | .padding, .right => .paddingRight
  | .padding, .bottom => .paddingBottom
  | .padding, .left => .paddingLeft
  | .margin, .top => .marginTop
  | .margin, .right => .marginRight
  | .margin, .bottom => .marginBottom
  | .margin, .left => .marginLeft

def nothing : String := "0px"

/-- The value of a side; one that is not set is nothing. -/
def readSide (c : Component) (g : Group) (s : Side) : String :=
  let value := c.effective (property g s)
  if value = "" then nothing else value

def read (c : Component) (g : Group) : List String := sides.map (readSide c g)

/-- Bare numbers become pixels, and what has no number is nothing. -/
def normalize (value : String) : String := (Measure.ofText .spacing value).text

/-- The one value of the sides that are more than nothing, where they agree. -/
def unifiedValue? (values : List String) : Option String :=
  match (values.map normalize).filter (· ≠ nothing) with
  | [] => some nothing
  | v :: rest => if rest.all (· = v) then some v else none

/-- All sides of the group at once. -/
def unifiedPatch (g : Group) (value : String) : StyleMap :=
  .ofList (sides.map fun s => (property g s, normalize value))

def sidePatch (g : Group) (s : Side) (value : String) : StyleMap :=
  StyleMap.empty.set (property g s) (normalize value)

structure Control where
  group : Group
  mode : Mode
deriving DecidableEq, Repr

namespace Control

/-- Opens on one value where the sides agree. -/
def ofComponent (c : Component) (g : Group) : Control :=
  ⟨g, if (unifiedValue? (read c g)).isSome then .unified else .advanced⟩

def display? (k : Control) (c : Component) : Option String := unifiedValue? (read c k.group)

/-- Changes the mode. On the way back to one value the top side is written to all of them. -/
def toggle (k : Control) (c : Component) : Control × Option StyleMap :=
  match k.mode with
  | .unified => ({ k with mode := .advanced }, none)
  | .advanced =>
    ({ k with mode := .unified }, some (unifiedPatch k.group (readSide c k.group .top)))

/-- The patch for a value that is entered for all sides. -/
def setAll (k : Control) (value : String) : StyleMap := unifiedPatch k.group value

def setSide (k : Control) (s : Side) (value : String) : StyleMap := sidePatch k.group s value

end Control

end MailComposer.Spacing
