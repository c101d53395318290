import MailComposer.Mutation

/-!
Mutations in JSON: an object with the name of the operation under `op`, or an array that starts
with it. The fields are held back until the operation is known.
-/
namespace MailComposer

open Json (Decoded Field Medium Reading)

namespace Mutation

def toJson : Mutation → Json
  | .add type t =>
    .object [("op", .string "add"), ("componentType", .string type), ("target", t.toJson)]
  | .update id p => .object [("op", .string "update"), ("id", .string id), ("patch", p.toJson)]
  | .delete id => .object [("op", .string "delete"), ("id", .string id)]
  | .move r d =>
    .object [("op", .string "move"), ("target", r.toJson), ("direction", d.toJson)]
  | .duplicate r => .object [("op", .string "duplicate"), ("target", r.toJson)]
  | .relocate id t => .object [("op", .string "relocate"), ("id", .string id), ("target", t.toJson)]

inductive Operation where
  | add
  | update
  | delete
  | move
  | duplicate
  | relocate
deriving DecidableEq, Repr

namespace Operation

def all : List Operation := [.add, .update, .delete, .move, .duplicate, .relocate]

def name : Operation → String
  | .add => "add"
  | .update => "update"
  | .delete => "delete"
  | .move => "move"
  | .duplicate => "duplicate"
  | .relocate => "relocate"

def read : Reading → Decoded Operation
  | .string s =>
    match all.find? (·.name == s) with
    | some o => .ok o
    | none => .error (.unknownVariant s (all.map name))
  | r => .error (Json.mismatch "variant identifier" r)

end Operation

/-- The operation of the members and all members beside it. -/
def splitMembers (m : Medium) : List (Option String × Reading) → Option Operation →
    Decoded (Option Operation × List (Option String × Reading))
  | [], op => .ok (op, [])
  | (none, _) :: _, _ => .error (.fault .malformed)
  | (some k, r) :: rest, op =>
    if k = "op" then
      match op with
      | some _ => .error (.duplicateField "op")
      | none => do
        let op ← Operation.read r
        splitMembers m rest (some op)
    else do
      let r ← r.hold m
      let (op, rest) ← splitMembers m rest op
      return (op, (some k, r) :: rest)

/-- The operation and its fields, in the medium of what was held back. -/
def split (m : Medium) : Reading → Decoded (Operation × Reading)
  | .object members stop => do
    let m ← m.enter
    let (op, rest) ← splitMembers m members none
    Json.ending stop
    match op with
    | none => .error (.missingField "op")
    | some op => return (op, .object rest none)
  | .array [] stop => do
    let _ ← m.enter
    Json.ending stop
    .error (.missingField "op")
  | .array (r :: items) stop => do
    let m ← m.enter
    let op ← Operation.read r
    let items ← items.mapM (Reading.hold m)
    Json.ending stop
    return (op, .array items none)
  | r => .error (Json.mismatch "internally tagged enum Mutation" r)

def readFields (r : Reading) : Operation → Decoded Mutation
  | .add => do
    let (type, t) ← r.record .held "struct variant Mutation::Add" (fun m =>
      [.required "componentType" Reading.text fun v s => (v, s.2),
       .optional "target" (Target.read m) fun v s => (s.1, v)]) ("", .root)
    return .add type t
  | .update => do
    let (id, p) ← r.record .held "struct variant Mutation::Update" (fun m =>
      [.required "id" Reading.text fun v s => (v, s.2),
       .required "patch" (Patch.read m) fun v s => (s.1, v)]) ("", .empty)
    return .update id p
  | .delete => do
    let id ← r.record .held "struct variant Mutation::Delete" (fun _ =>
      [.required "id" Reading.text fun v _ => v]) ""
    return .delete id
  | .move => do
    let (t, d) ← r.record .held "struct variant Mutation::Move" (fun m =>
      [.required "target" (Ref.read m) fun v s => (v, s.2),
       .required "direction" (Direction.read m) fun v s => (s.1, v)])
      (Ref.named "", Direction.up)
    return .move t d
  | .duplicate => do
    let t ← r.record .held "struct variant Mutation::Duplicate" (fun m =>
      [.required "target" (Ref.read m) fun v _ => v]) (Ref.named "")
    return .duplicate t
  | .relocate => do
    let (id, t) ← r.record .held "struct variant Mutation::Relocate" (fun m =>
      [.required "id" Reading.text fun v s => (v, s.2),
       .required "target" (Target.read m) fun v s => (s.1, v)]) ("", .root)
    return .relocate id t

def read (m : Medium) (r : Reading) : Decoded Mutation := do
  let (op, fields) ← split m r
  readFields fields op

def ofText? (s : String) : Decoded Mutation := Json.decodeText read s

def ofJson? (j : Json) : Decoded Mutation := Json.decodeJson read j

end Mutation

end MailComposer
