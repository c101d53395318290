import MailComposer.Json.Basic

/-!
What reading a text as JSON yields: a value with the places in it where reading failed, in the order
of the text. What is missing in it tells which of two faults a reader meets first.
-/
namespace MailComposer.Json

/-- A sign that cannot stand where it does, or a text that ends too early. -/
inductive Fault where
  | malformed
  | cutOff
deriving DecidableEq, Repr

/-- Where reading ends before the value does, for one who needs the lexeme and for one who skips
it: a number cut off by the end of the text is malformed to the latter. -/
structure Break where
  read : Fault
  skipped : Fault
deriving DecidableEq, Repr

def Break.both (f : Fault) : Break := ⟨f, f⟩

/-- A lexeme is `invalid` when it is complete but stands for no value: a number out of range, an
unpaired surrogate. An object has `none` for such a key. After a `broken` value nothing follows. -/
inductive Reading where
  | null
  | bool (b : Bool)
  | number (n : Number)
  | string (s : String)
  | invalid
  | broken (stop : Break)
  | array (items : List Reading) (stop : Option Break)
  | object (members : List (Option String × Reading)) (stop : Option Break)

namespace Reading

mutual

/-- A value read without fault. -/
def ofJson : Json → Reading
  | .null => .null
  | .bool b => .bool b
  | .number n => .number n
  | .string s => .string s
  | .array items => .array (ofItems items) none
  | .object members => .object (ofMembers members) none

def ofItems : List Json → List Reading
  | [] => []
  | j :: rest => ofJson j :: ofItems rest

def ofMembers : List (String × Json) → List (Option String × Reading)
  | [] => []
  | (k, j) :: rest => (some k, ofJson j) :: ofMembers rest

end

mutual

/-- The fault that ends the text inside a value which is passed over. -/
def faultInSkipped : Reading → Option Fault
  | .broken stop => some stop.skipped
  | .array items stop => (faultInItems items).or (stop.map Break.skipped)
  | .object members stop => (faultInMembers members).or (stop.map Break.skipped)
  | _ => none

def faultInItems : List Reading → Option Fault
  | [] => none
  | r :: rest => (faultInSkipped r).or (faultInItems rest)

def faultInMembers : List (Option String × Reading) → Option Fault
  | [] => none
  | (_, r) :: rest => (faultInSkipped r).or (faultInMembers rest)

end

end Reading

end MailComposer.Json
