import MailComposer.Component.Json
import MailComposer.Tree.Lookup

/-!
Ways to name a place in a forest and a component of it, and their forms in JSON.
-/
namespace MailComposer

open Json (Decoded Field Medium Reading)

inductive Direction where
  | up
  | down
deriving DecidableEq, Repr

namespace Direction

def name : Direction → String
  | .up => "up"
  | .down => "down"

def toJson (d : Direction) : Json := .string d.name

def read (m : Medium) : Reading → Decoded Direction :=
  Reading.oneOf m [("up", .up), ("down", .down)]

end Direction

/-- Where a component is put: at an index in the list of a parent, at its end by default. -/
structure Target where
  parent : Option String := none
  column : Option UInt64 := none
  index : Option UInt64 := none
deriving DecidableEq, Repr

namespace Target

/-- The end of the forest. -/
def root : Target := {}

def inside (parent : String) : Target := { parent := some parent }

def inColumn (parent : String) (column : UInt64) : Target :=
  { parent := some parent, column := some column }

def atIndex (t : Target) (index : UInt64) : Target := { t with index := some index }

def toJson (t : Target) : Json :=
  .object (Json.memberOf "parentId" .string t.parent ++
    Json.memberOf "columnIndex" .index t.column ++
    Json.memberOf "index" .index t.index)

def fields (_ : Medium) : List (Field Reading Target) :=
  [.optional "parentId" (Reading.optional Reading.text) fun v t => { t with parent := v },
   .optional "columnIndex" (Reading.optional Reading.index) fun v t => { t with column := v },
   .optional "index" (Reading.optional Reading.index) fun v t => { t with index := v }]

def read (m : Medium) : Reading → Decoded Target :=
  Reading.record m "struct DropTarget" fields root

end Target

/-- A component by its id, or by its position in a list. -/
inductive Ref where
  | named (id : String)
  | position (index : UInt64) (parent : Option String) (column : Option UInt64)
deriving DecidableEq, Repr

namespace Ref

/-- The id of the component, if there is one. -/
def resolve? (tree : List Component) : Ref → Option String
  | .named i => if Component.containsIn i tree then some i else none
  | .position index parent column =>
    ((Component.level? tree parent column).bind fun cs => cs[index.toNat]?).map Component.id

def toJson : Ref → Json
  | .named i => .object [("id", .string i)]
  | .position index parent column =>
    .object [("index", .object (("index", .index index) ::
      (Json.memberOf "parentId" .string parent ++
        Json.memberOf "columnIndex" .index column)))]

def positionFields (_ : Medium) : List (Field Reading (UInt64 × Option String × Option UInt64)) :=
  [.required "index" Reading.index fun v p => (v, p.2),
   .optional "parentId" (Reading.optional Reading.text) fun v p => (p.1, v, p.2.2),
   .optional "columnIndex" (Reading.optional Reading.index) fun v p => (p.1, p.2.1, v)]

/-- What stands beside the name of a choice; an array does where parts are held back. -/
def readPosition (m : Medium) : Option Reading → Decoded Ref
  | none => .error (.invalidType .unitVariant "struct variant")
  | some (.object members stop) => do
    let (i, p, c) ← Field.ofMembers (positionFields m) Reading.skip members stop (0, none, none)
    return .position i p c
  | some r =>
    match m, r with
    | .held, .array items stop => do
      let fields := positionFields m
      let (i, p, c) ← Field.takeItems m "struct variant ComponentRef::Index" fields.length stop
        fields items (0, none, none)
      return .position i p c
    | _, r => .error (Json.mismatch "struct variant" r)

def read (m : Medium) (r : Reading) : Decoded Ref := do
  let (name, content) ← r.choice
  match name with
  | "id" =>
    match content with
    | none => .error (.invalidType .unitVariant "newtype variant")
    | some r => r.text.map .named
  | "index" => readPosition m content
  | name => .error (.unknownVariant name ["id", "index"])

end Ref

end MailComposer
