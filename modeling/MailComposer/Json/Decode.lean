import MailComposer.Json.DecodeError
import MailComposer.Json.Reader

/-!
Decoding of scalars, sequences and choices. A decoder walks a reading in the order of its text and
reports the first thing that is wrong.
-/
namespace MailComposer.Json

/-- Where a reading comes from: straight from a text in which `room` more levels may open, from a
settled value, or from parts held back until it was known what they belong to. -/
inductive Medium where
  | text (room : Nat)
  | value
  | held
deriving DecidableEq, Repr

/-- The medium inside an array or object. -/
def Medium.enter : Medium → Decoded Medium
  | .text 0 => .error (.fault .malformed)
  | .text (room + 1) => .ok (.text room)
  | m => .ok m

/-- A lexeme is read before it is found to be of the wrong kind, an array or object is not. -/
def mismatch (expected : String) : Reading → DecodeError
  | .null => .invalidType .null expected
  | .bool b => .invalidType (.bool b) expected
  | .number (.whole n) => .invalidType (.whole n) expected
  | .number (.below n) => .invalidType (.whole (-n)) expected
  | .number (.fractional x) => .invalidType (.fractional x) expected
  | .string s => .invalidType (.string s) expected
  | .invalid => .fault .malformed
  | .broken stop => .fault stop.read
  | .array .. => .invalidType .sequence expected
  | .object .. => .invalidType .map expected

def ending (stop : Option Break) : Decoded Unit :=
  match stop with
  | none => .ok ()
  | some b => .error (.fault b.read)

namespace Reading

mutual

/-- The value of a reading, every lexeme of it being asked for. -/
def json (m : Medium) : Reading → Decoded Json
  | .null => .ok .null
  | .bool b => .ok (.bool b)
  | .number n => .ok (.number n)
  | .string s => .ok (.string s)
  | .invalid => .error (.fault .malformed)
  | .broken stop => .error (.fault stop.read)
  | .array items stop => do
    let m ← m.enter
    let items ← jsonItems m items
    ending stop
    return .array items
  | .object members stop => do
    let m ← m.enter
    let members ← jsonMembers m members
    ending stop
    return .object members

def jsonItems (m : Medium) : List Reading → Decoded (List Json)
  | [] => .ok []
  | r :: rest => do
    let j ← json m r
    return j :: (← jsonItems m rest)

def jsonMembers (m : Medium) : List (Option String × Reading) → Decoded (List (String × Json))
  | [] => .ok []
  | (none, _) :: _ => .error (.fault .malformed)
  | (some k, r) :: rest => do
    let j ← json m r
    return (k, j) :: (← jsonMembers m rest)

end

def text : Reading → Decoded String
  | .string s => .ok s
  | r => .error (mismatch "a string" r)

def flag : Reading → Decoded Bool
  | .bool b => .ok b
  | r => .error (mismatch "a boolean" r)

/-- A whole number below `limit`. -/
def natural (limit : Nat) (expected : String) : Reading → Decoded Nat
  | .number (.whole n) =>
    if n < limit then .ok n else .error (.invalidValue (.whole n) expected)
  | .number (.below n) => .error (.invalidValue (.whole (-n)) expected)
  | r => .error (mismatch expected r)

def byte (r : Reading) : Decoded UInt8 := (r.natural UInt8.size "u8").map UInt8.ofNat

def index (r : Reading) : Decoded UInt64 := (r.natural UInt64.size "usize").map UInt64.ofNat

def optional (read : Reading → Decoded α) : Reading → Decoded (Option α)
  | .null => .ok none
  | r => (read r).map some

def sequence (m : Medium) (read : Medium → Reading → Decoded α) : Reading → Decoded (List α)
  | .array items stop => do
    let m ← m.enter
    let xs ← items.mapM (read m)
    ending stop
    return xs
  | r => .error (mismatch "a sequence" r)

def texts (m : Medium) : Reading → Decoded (List String) := sequence m fun _ => text

/-- Passes over a value that nothing asks for. -/
def skip (r : Reading) : Decoded Unit :=
  match r.faultInSkipped with
  | none => .ok ()
  | some f => .error (.fault f)

/-- Reads a whole value ahead, so that it can be decoded later. -/
def hold (m : Medium) (r : Reading) : Decoded Reading := (r.json m).map fun _ => r

/-- A choice is written as its name, or as an object with the name as its one key. -/
def choice : Reading → Decoded (String × Option Reading)
  | .string s => .ok (s, none)
  | .object [(some k, v)] none => .ok (k, some v)
  | .object _ _ => .error (.invalidValue .map "map with a single key")
  | r => .error (mismatch "string or map" r)

/-- What stands beside the name of a choice that has no content. -/
def noContent (m : Medium) : Option Reading → Decoded Unit
  | none => .ok ()
  | some .null => .ok ()
  | some (.object [] none) =>
    if m = .held then .ok () else .error (.invalidType .map "unit")
  | some r => .error (mismatch "unit" r)

/-- One of the names with no content. -/
def oneOf (m : Medium) (options : List (String × α)) (r : Reading) : Decoded α := do
  let (name, content) ← r.choice
  match options.lookup name with
  | none => .error (.unknownVariant name (options.map Prod.fst))
  | some a =>
    noContent m content
    return a

end Reading

end MailComposer.Json
