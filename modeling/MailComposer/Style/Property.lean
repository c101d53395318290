import MailComposer.Dictionary

/-!
The vocabulary of style properties. Their order is the order in which styles are written out.
-/
namespace MailComposer

inductive Property where
  | fontFamily
  | fontSize
  | fontWeight
  | fontStyle
  | lineHeight
  | letterSpacing
  | textAlign
  | textDecoration
  | textTransform
  | color
  | backgroundColor
  | display
  | width
  | maxWidth
  | height
  | minHeight
  | verticalAlign
  | paddingTop
  | paddingRight
  | paddingBottom
  | paddingLeft
  | marginTop
  | marginRight
  | marginBottom
  | marginLeft
  | border
  | borderTop
  | borderRight
  | borderBottom
  | borderLeft
  | borderWidth
  | borderStyle
  | borderColor
  | borderRadius
  | boxShadow
  | gap
  | listStyleType
  | listStylePosition
  | opacity
deriving DecidableEq, Repr

namespace Property

/-- The key of the property in a style map. -/
def key : Property → String
  | .fontFamily => "fontFamily"
  | .fontSize => "fontSize"
  | .fontWeight => "fontWeight"
  | .fontStyle => "fontStyle"
  | .lineHeight => "lineHeight"
  | .letterSpacing => "letterSpacing"
  | .textAlign => "textAlign"
  | .textDecoration => "textDecoration"
  | .textTransform => "textTransform"
  | .color => "color"
  | .backgroundColor => "backgroundColor"
  | .display => "display"
  | .width => "width"
  | .maxWidth => "maxWidth"
  | .height => "height"
  | .minHeight => "minHeight"
  | .verticalAlign => "verticalAlign"
  | .paddingTop => "paddingTop"
  | .paddingRight => "paddingRight"
  | .paddingBottom => "paddingBottom"
  | .paddingLeft => "paddingLeft"
  | .marginTop => "marginTop"
  | .marginRight => "marginRight"
  | .marginBottom => "marginBottom"
  | .marginLeft => "marginLeft"
  | .border => "border"
  | .borderTop => "borderTop"
  | .borderRight => "borderRight"
  | .borderBottom => "borderBottom"
  | .borderLeft => "borderLeft"
  | .borderWidth => "borderWidth"
  | .borderStyle => "borderStyle"
  | .borderColor => "borderColor"
  | .borderRadius => "borderRadius"
  | .boxShadow => "boxShadow"
  | .gap => "gap"
  | .listStyleType => "listStyleType"
  | .listStylePosition => "listStylePosition"
  | .opacity => "opacity"

/-- Every property, in order. -/
def all : List Property :=
  [.fontFamily, .fontSize, .fontWeight, .fontStyle, .lineHeight, .letterSpacing, .textAlign,
   .textDecoration, .textTransform, .color, .backgroundColor, .display, .width, .maxWidth,
   .height, .minHeight, .verticalAlign, .paddingTop, .paddingRight, .paddingBottom, .paddingLeft,
   .marginTop, .marginRight, .marginBottom, .marginLeft, .border, .borderTop, .borderRight,
   .borderBottom, .borderLeft, .borderWidth, .borderStyle, .borderColor, .borderRadius,
   .boxShadow, .gap, .listStyleType, .listStylePosition, .opacity]

def ofKey? (key : String) : Option Property := all.find? (·.key == key)

def isMargin : Property → Bool
  | .marginTop | .marginRight | .marginBottom | .marginLeft => true
  | _ => false

/-- The position in the order of properties. -/
def rank (p : Property) : Nat := p.ctorIdx

private theorem all_rank (p : Property) : all[p.rank]? = some p := by cases p <;> rfl

private theorem rank_injective {p q : Property} (h : p.rank = q.rank) : p = q :=
  Option.some.inj ((all_rank p).symm.trans (h ▸ all_rank q))

instance : LT Property := ⟨fun p q => p.rank < q.rank⟩

instance : DecidableLT Property := fun p q => inferInstanceAs (Decidable (p.rank < q.rank))

instance : KeyOrder Property where
  irrefl p := Nat.lt_irrefl p.rank
  trans := Nat.lt_trans
  connected h hne :=
    Nat.lt_of_le_of_ne (Nat.le_of_not_lt h) fun e => hne (rank_injective e.symm)

@[simp] theorem ofKey?_key (p : Property) : ofKey? p.key = some p := by cases p <;> rfl

theorem key_of_ofKey? {k : String} {p : Property} (h : ofKey? k = some p) : p.key = k := by
  have := List.find?_some h
  exact eq_of_beq this

end Property

end MailComposer
