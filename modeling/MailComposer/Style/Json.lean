import MailComposer.Json.Record
import MailComposer.Style.StyleMap

/-!
Style maps in JSON: an object of texts. Reading also takes numbers and truth values, as they are
written, and passes over anything else.
-/
namespace MailComposer

namespace StyleMap
open Json (Decoded Medium Reading)

def toJson (s : StyleMap) : Json := .object (s.entries.map fun e => (e.1, .string e.2))

/-- The style value of a scalar. -/
def scalar? : Json → Option String
  | .string s => some s
  | .number n => some n.text
  | .bool b => some (toString b)
  | _ => none

def setScalar (s : StyleMap) (e : String × Json) : StyleMap :=
  match scalar? e.2 with
  | some value => s.setKey e.1 value
  | none => s

/-- Of equal keys the last counts, also where its value is passed over. -/
def ofMembers (members : List (String × Json)) : StyleMap :=
  (members.foldl (fun es e => Entries.insert e.1 e.2 es) []).foldl setScalar empty

def read (m : Medium) : Reading → Decoded StyleMap
  | .object members stop => do
    let m ← m.enter
    let members ← Reading.jsonMembers m members
    Json.ending stop
    return ofMembers members
  | r => .error (Json.mismatch "a map" r)

def ofText? (s : String) : Decoded StyleMap := Json.decodeText read s

end StyleMap

end MailComposer
