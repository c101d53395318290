import MailComposer.Dictionary
import MailComposer.Number.Shortest

/-!
JSON values. Objects keep their members in the order in which they are written; the settled form
of a value has them in the order of their keys, the last of several equal keys counting.
-/
namespace MailComposer

/-- A number with a point, with an exponent or beyond 64 bits is not whole. -/
inductive Json.Number where
  | whole (n : Nat)
  | below (n : Nat)
  | fractional (x : Binary64)
deriving DecidableEq, Repr

inductive Json where
  | null
  | bool (b : Bool)
  | number (n : Json.Number)
  | string (s : String)
  | array (items : List Json)
  | object (members : List (String × Json))

namespace Json

/-- `below n` stands for `-n`. -/
def Number.text : Number → String
  | .whole n => toString n
  | .below n => "-" ++ toString n
  | .fractional x => x.text

def nat (n : Nat) : Json := .number (.whole n)

def index (i : UInt64) : Json := nat i.toNat

def texts (xs : List String) : Json := .array (xs.map .string)

/-- A member for a value that may be missing. -/
def memberOf (key : String) (encode : α → Json) : Option α → List (String × Json)
  | none => []
  | some a => [(key, encode a)]

mutual

/-- Members in the order of their keys, without repetition, at every depth. -/
def settled : Json → Json
  | .array items => .array (settledItems items)
  | .object members => .object (settledMembers members [])
  | j => j

def settledItems : List Json → List Json
  | [] => []
  | j :: rest => settled j :: settledItems rest

def settledMembers : List (String × Json) → List (String × Json) → List (String × Json)
  | [], done => done
  | (k, j) :: rest, done => settledMembers rest (Entries.insert k (settled j) done)

end

/-- The value of a member, the first of its key. -/
def get? : Json → String → Option Json
  | .object members, k => Entries.get? k members
  | _, _ => none

end Json

end MailComposer
