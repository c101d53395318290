import MailComposer.Number.Digits
import MailComposer.Number.Fixed
import MailComposer.Text.Blank

/-!
Style values with a unit, such as `16px`: a magnitude and the unit after it, read under the policy
of the control that edits them.
-/
namespace MailComposer

/-- The units that a control accepts, `""` for none, and the one it starts with. -/
structure UnitPolicy where
  allowed : List String
  default : String
deriving DecidableEq, Repr

namespace UnitPolicy

def spacing : UnitPolicy := ⟨["px"], "px"⟩
def fontSize : UnitPolicy := ⟨["px", "em", "rem"], "px"⟩
def size : UnitPolicy := ⟨["px", "%"], "px"⟩
def percentSize : UnitPolicy := ⟨["%", "px"], "%"⟩
def lineHeight : UnitPolicy := ⟨["", "px", "%"], ""⟩
def letterSpacing : UnitPolicy := ⟨["px", "em"], "px"⟩

def accepts (p : UnitPolicy) (unit : String) : Bool := p.allowed.contains unit

/-- The unit in place of one that is not accepted. -/
def fallback (p : UnitPolicy) : String := p.allowed.head?.getD p.default

def settle (p : UnitPolicy) (unit : String) : String :=
  if p.accepts unit then unit else p.fallback

end UnitPolicy

structure Measure where
  magnitude : Binary64
  unit : String
deriving DecidableEq, Repr

namespace Measure

def text (m : Measure) : String := m.magnitude.display ++ m.unit

/-- A decimal number as it is written: sign, digits, and digits after a point. -/
structure Numeral where
  negative : Bool
  whole : List Char
  places : List Char
deriving DecidableEq, Repr

def Numeral.value (n : Numeral) : Binary64 :=
  .ofDecimal n.negative (Digits.toNat (n.whole ++ n.places)) n.places.length

def splitSign : List Char → Bool × List Char
  | '-' :: cs => (true, cs)
  | '+' :: cs => (false, cs)
  | cs => (false, cs)

/-- The digits after a point; the point belongs to the number also when no digit follows it. -/
def splitPlaces : List Char → List Char × List Char
  | '.' :: cs => Digits.split cs
  | cs => ([], cs)

/-- The longest number at the start of a text and what follows it; a number has a digit. -/
def splitNumeral (cs : List Char) : Option (Numeral × List Char) :=
  let (negative, cs) := splitSign cs
  let (whole, cs) := Digits.split cs
  let (places, cs) := splitPlaces cs
  if whole.isEmpty && places.isEmpty then none else some (⟨negative, whole, places⟩, cs)

/-- Nothing when the value carries no number. -/
def ofText? (p : UnitPolicy) (s : String) : Option Measure :=
  (splitNumeral (Text.trimChars s.toList)).map fun (n, rest) =>
    ⟨n.value, p.settle (Text.lower (Text.trim (String.ofList rest)))⟩

/-- A value without a number counts as zero. -/
def ofText (p : UnitPolicy) (s : String) : Measure := (ofText? p s).getD ⟨.zero, p.default⟩

end Measure

end MailComposer
