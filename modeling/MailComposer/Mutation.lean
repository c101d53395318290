import MailComposer.Component.Preset
import MailComposer.Patch

/-!
Mutations: what an editor asks of a forest, as a value. A mutation is checked as a whole before it
changes anything.
-/
namespace MailComposer

inductive Mutation where
  | add (type : String) (target : Target)
  | update (id : String) (patch : Patch)
  | delete (id : String)
  | move (target : Ref) (direction : Direction)
  | duplicate (target : Ref)
  | relocate (id : String) (target : Target)
deriving DecidableEq

/-- Why a mutation is refused. -/
inductive MutationError where
  | nodeNotFound (id : String)
  | parentNotFound (id : String)
  | unknownType (name : String)
  | noIndex (index : UInt64)
  | cycle
  | columnOutOfRange (column count : Nat)
  | childless (kind : Kind)
  | invalidTemplate (cause : Json.DecodeError)
deriving DecidableEq, Repr

namespace MutationError

def message : MutationError → String
  | .nodeNotFound id => "Node not found: " ++ id
  | .parentNotFound id => "Parent not found: " ++ id
  | .unknownType name => "Unknown component type: " ++ name
  | .noIndex index => "No component at index " ++ toString index.toNat
  | .cycle => "Would create cycle"
  | .columnOutOfRange column count =>
    "Invalid structure: column " ++ toString column ++ " out of range for " ++ toString count ++
      " columns"
  | .childless kind => "Invalid structure: " ++ kind.name ++ " cannot have children"
  | .invalidTemplate cause => "Invalid structure: Invalid template JSON: " ++ cause.message

end MutationError

namespace Mutation

open Component (containsIn findIn? isWithin siblingAfter?)

/-- Whether the edit can be taken back; live changes of fields are not recorded. -/
def isUndoable : Mutation → Bool
  | .update .. => false
  | _ => true

def describe : Mutation → String
  | .add type _ => "Add " ++ type
  | .update id _ => "Update " ++ id
  | .delete id => "Delete " ++ id
  | .move _ .up => "Move Up"
  | .move _ .down => "Move Down"
  | .duplicate _ => "Duplicate"
  | .relocate id _ => "Relocate " ++ id

def checkNode (tree : List Component) (id : String) : Except MutationError Unit :=
  if containsIn id tree then .ok () else .error (.nodeNotFound id)

def checkParent (t : Target) : Component → Except MutationError Unit
  | .leaf _ _ l => .error (.childless l.kind)
  | .column _ _ widths _ =>
    let column := (t.column.getD 0).toNat
    if column < widths.length then .ok () else .error (.columnOutOfRange column widths.length)
  | .container .. => .ok ()

def checkTarget (tree : List Component) (t : Target) : Except MutationError Unit :=
  match t.parent with
  | none => .ok ()
  | some p =>
    match findIn? p tree with
    | none => .error (.parentNotFound p)
    | some c => checkParent t c

def checkAcyclic (tree : List Component) (id : String) (t : Target) : Except MutationError Unit :=
  match t.parent with
  | none => .ok ()
  | some p => if isWithin tree id p then .error .cycle else .ok ()

def preset (type : String) : Except MutationError Preset :=
  match Preset.ofName? type with
  | some p => .ok p
  | none => .error (.unknownType type)

def resolve (tree : List Component) (r : Ref) : Except MutationError String :=
  match r.resolve? tree, r with
  | some id, _ => .ok id
  | none, .named id => .error (.nodeNotFound id)
  | none, .position index .. => .error (.noIndex index)

def validate (tree : List Component) : Mutation → Except MutationError Unit
  | .add type t => do
    let _ ← preset type
    checkTarget tree t
  | .update id _ => checkNode tree id
  | .delete id => checkNode tree id
  | .move r _ => (resolve tree r).map fun _ => ()
  | .duplicate r => (resolve tree r).map fun _ => ()
  | .relocate id t => do
    checkNode tree id
    checkTarget tree t
    checkAcyclic tree id t

/-- The new forest, and the id of the component that an addition or a copy has made. -/
structure Outcome where
  components : List Component
  created : Option String

variable {σ : Type} [IdSource σ]

def apply (tree : List Component) (ids : σ) (m : Mutation) :
    Except MutationError (Outcome × σ) := do
  m.validate tree
  match m with
  | .add type t => do
    let p ← preset type
    let (id, ids) := IdSource.next ids
    return (⟨Tree.add tree (p.build id) t, some id⟩, ids)
  | .update id p => return (⟨Tree.update tree id p, none⟩, ids)
  | .delete id => return (⟨Tree.delete tree id, none⟩, ids)
  | .move r d => do
    let id ← resolve tree r
    return (⟨Tree.move tree id d, none⟩, ids)
  | .duplicate r => do
    let id ← resolve tree r
    let (_, tree, ids) := Tree.duplicate tree id ids
    -- The copy is looked up where it should have been put.
    return (⟨tree, siblingAfter? tree id⟩, ids)
  | .relocate id t => return (⟨Tree.relocate tree id t, none⟩, ids)

end Mutation

end MailComposer
