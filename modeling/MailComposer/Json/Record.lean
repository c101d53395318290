import MailComposer.Json.Decode

/-!
Decoding of records from the members of an object, or from the items of an array in the order of the
fields. A field that is needed must be there, any other keeps the value that the record starts with.
-/
namespace MailComposer.Json

/-- A field of the record `σ` that is read from an `ι`. -/
structure Field (ι σ : Type) where
  name : String
  needed : Bool
  read : ι → Decoded (σ → σ)

namespace Field

variable {ι σ α : Type}

def required (name : String) (read : ι → Decoded α) (set : α → σ → σ) : Field ι σ :=
  ⟨name, true, fun i => (read i).map set⟩

def optional (name : String) (read : ι → Decoded α) (set : α → σ → σ) : Field ι σ :=
  ⟨name, false, fun i => (read i).map set⟩

/-- Takes the members in turn; `seen` holds the names of the fields that are set. -/
def takeMembers (fields : List (Field ι σ)) (skip : ι → Decoded Unit) :
    List (Option String × ι) → List String → σ → Decoded (List String × σ)
  | [], seen, s => .ok (seen, s)
  | (none, _) :: _, _, _ => .error (.fault .malformed)
  | (some k, i) :: rest, seen, s =>
    match fields.find? (·.name == k) with
    | none => do
      skip i
      takeMembers fields skip rest seen s
    | some f =>
      if k ∈ seen then .error (.duplicateField k)
      else do
        let set ← f.read i
        takeMembers fields skip rest (k :: seen) (set s)

def ofMembers (fields : List (Field ι σ)) (skip : ι → Decoded Unit)
    (members : List (Option String × ι)) (stop : Option Break) (start : σ) : Decoded σ := do
  let (seen, s) ← takeMembers fields skip members [] start
  ending stop
  match fields.find? fun f => f.needed && !seen.contains f.name with
  | some f => .error (.missingField f.name)
  | none => return s

/-- What is left of the items when every field is set. -/
def surplus (m : Medium) (fields rest : Nat) (stop : Option Break) : Decoded Unit :=
  if rest = 0 then ending stop
  else
    match m with
    | .text _ => .error (.fault .malformed)
    | .value => .error (.invalidLength (fields + rest) "fewer elements in array")
    | .held =>
      let elements := if fields = 1 then " element in sequence" else " elements in sequence"
      .error (.invalidLength (fields + rest) (toString fields ++ elements))

def takeItems (m : Medium) (expected : String) (total : Nat) (stop : Option Break) :
    List (Field ι σ) → List ι → σ → Decoded σ
  | [], rest, s => do
    surplus m total rest.length stop
    return s
  | f :: fields, [], s => do
    ending stop
    if f.needed then
      let elements := if total = 1 then " element" else " elements"
      .error (.invalidLength (total - fields.length - 1)
        (expected ++ " with " ++ toString total ++ elements))
    else takeItems m expected total stop fields [] s
  | f :: fields, i :: rest, s => do
    let set ← f.read i
    takeItems m expected total stop fields rest (set s)

end Field

/-- Decodes the record of these fields. -/
def Reading.record {σ : Type} (m : Medium) (expected : String)
    (fields : Medium → List (Field Reading σ)) (start : σ) : Reading → Decoded σ
  | .object members stop => do
    let m ← m.enter
    Field.ofMembers (fields m) Reading.skip members stop start
  | .array items stop => do
    let m ← m.enter
    Field.takeItems m expected (fields m).length stop (fields m) items start
  | r => .error (mismatch expected r)

/-- Decodes a whole text. -/
def Document.decode {α : Type} (read : Medium → Reading → Decoded α) (d : Document) :
    Decoded α := do
  let a ← read (.text nestingLimit) d.value
  match d.tail with
  | .ok _ => return a
  | .error f => .error (.fault f)

def decodeText {α : Type} (read : Medium → Reading → Decoded α) (s : String) : Decoded α :=
  (Document.ofText s).decode read

/-- The settled value of a text. -/
def ofText? (s : String) : Decoded Json := (decodeText Reading.json s).map settled

/-- Decodes a value, in its settled form. -/
def decodeJson {α : Type} (read : Medium → Reading → Decoded α) (j : Json) : Decoded α :=
  read .value (.ofJson j.settled)

end MailComposer.Json
