import MailComposer.Json.Reading
import MailComposer.Text.Debug

/-!
Why a JSON text or value is not the form of a thing, and the wording of each cause.
-/
namespace MailComposer.Json

/-- What was found where something else was expected. -/
inductive Found where
  | null
  | bool (b : Bool)
  | whole (n : Int)
  | fractional (x : Binary64)
  | string (s : String)
  | sequence
  | map
  | unitVariant
deriving DecidableEq, Repr

/-- A `fault` of the text itself, or data of the wrong shape. -/
inductive DecodeError where
  | fault (f : Fault)
  | missingField (name : String)
  | duplicateField (name : String)
  | unknownVariant (name : String) (expected : List String)
  | invalidType (found : Found) (expected : String)
  | invalidValue (found : Found) (expected : String)
  | invalidLength (length : Nat) (expected : String)
deriving DecidableEq, Repr

abbrev Decoded (α : Type) : Type := Except DecodeError α

def ticked (s : String) : String := "`" ++ s ++ "`"

def Found.text : Found → String
  | .null => "null"
  | .bool b => "boolean " ++ ticked (toString b)
  | .whole n => "integer " ++ ticked (toString n)
  | .fractional x => "floating point " ++ ticked x.text
  | .string s => "string " ++ Text.debugQuoted s
  | .sequence => "sequence"
  | .map => "map"
  | .unitVariant => "unit variant"

/-- Two names are joined by `or`, more of them follow `one of`. -/
def choice (names : List String) : String :=
  match names with
  | [] => "there are no variants"
  | [a] => "expected " ++ ticked a
  | [a, b] => "expected " ++ ticked a ++ " or " ++ ticked b
  | names => "expected one of " ++ ", ".intercalate (names.map ticked)

/-- The wording of data of the wrong shape; a faulty text has none. -/
def DecodeError.message? : DecodeError → Option String
  | .fault _ => none
  | .missingField name => some ("missing field " ++ ticked name)
  | .duplicateField name => some ("duplicate field " ++ ticked name)
  | .unknownVariant name expected =>
    some ("unknown variant " ++ ticked name ++ ", " ++ choice expected)
  | .invalidType found expected =>
    some ("invalid type: " ++ found.text ++ ", expected " ++ expected)
  | .invalidValue found expected =>
    some ("invalid value: " ++ found.text ++ ", expected " ++ expected)
  | .invalidLength length expected =>
    some ("invalid length " ++ toString length ++ ", expected " ++ expected)

def Fault.text : Fault → String
  | .malformed => "malformed JSON text"
  | .cutOff => "JSON text ends too early"

def DecodeError.message (e : DecodeError) : String :=
  match e with
  | .fault f => f.text
  | e => e.message?.getD ""

end MailComposer.Json
