import MailComposer.History
import MailComposer.Html.Document
import MailComposer.Mutation
import MailComposer.Spacing

/-!
Editing sessions: one open template with its selection and its history. Whatever cannot be done
leaves the session as it is.
-/
namespace MailComposer

/-- `selected` is a copy of the component, read again after every edit. A receiver of saved or
exported documents holds what it was handed, the latest first. -/
structure Session (σ : Type) where
  templateId : Option String
  name : Option String
  components : List Component
  canvas : Canvas
  selected : Option Component := none
  history : History (List Component) := .empty
  ids : σ
  saved : Option (List Template) := none
  exported : Option (List String) := none

namespace Session

variable {σ : Type}

def ofTemplate (t : Template) (ids : σ) : Session σ where
  templateId := t.id
  name := t.name
  components := t.components
  canvas := t.canvas
  ids := ids

def new (ids : σ) : Session σ := ofTemplate .empty ids

def ofText? (s : String) (ids : σ) : Json.Decoded (Session σ) :=
  (Template.ofText? s).map (ofTemplate · ids)

def template (s : Session σ) : Template where
  id := s.templateId
  name := s.name
  components := s.components
  canvas := s.canvas

def find? (s : Session σ) (id : String) : Option Component := Component.findIn? id s.components

/-- Takes over a history with all that it can go back to. -/
def withHistory (s : Session σ) (h : History (List Component)) : Session σ := { s with history := h }

def setName (s : Session σ) (name : String) : Session σ := { s with name := some name }

def setCanvas (s : Session σ) (c : Canvas) : Session σ := { s with canvas := c }

def selectedId (s : Session σ) : Option String := s.selected.map Component.id

/-- Keeps the old selection where the id is unknown. -/
def select (s : Session σ) (id : String) : Bool × Session σ :=
  match s.find? id with
  | some c => (true, { s with selected := some c })
  | none => (false, s)

def clearSelection (s : Session σ) : Session σ := { s with selected := none }

/-- Takes new components, and reads the selected one from them, if it is still there. -/
def withComponents (s : Session σ) (components : List Component) : Session σ :=
  { s with
    components
    selected := s.selected.bind fun c => Component.findIn? c.id components }

variable [IdSource σ]

/-- Records the state before an edit that can be taken back. -/
def apply (s : Session σ) (m : Mutation) : Except MutationError (Option String × Session σ) := do
  let (outcome, ids) ← m.apply s.components s.ids
  let history :=
    if m.isUndoable then s.history.snapshot s.components (some m.describe) else s.history
  return (outcome.created, { s with ids, history }.withComponents outcome.components)

/-- Does nothing where the mutation is refused. -/
def attempt (s : Session σ) (m : Mutation) : Option String × Session σ :=
  match s.apply m with
  | .ok r => r
  | .error _ => (none, s)

def drop (s : Session σ) (type : String) (t : Target) : Option String × Session σ :=
  s.attempt (.add type t)

def add (s : Session σ) (type : String) (index : Option UInt64) (parent : Option String)
    (column : Option UInt64) : Option String × Session σ :=
  s.drop type { parent, column, index }

def update (s : Session σ) (id : String) (p : Patch) : Session σ := (s.attempt (.update id p)).2

def applyStyles (s : Session σ) (id : String) (styles : StyleMap) : Session σ :=
  s.update id (.ofStyles styles)

def delete (s : Session σ) (id : String) : Session σ := (s.attempt (.delete id)).2

def move (s : Session σ) (r : Ref) (d : Direction) : Session σ := (s.attempt (.move r d)).2

def duplicate (s : Session σ) (r : Ref) : Option String × Session σ := s.attempt (.duplicate r)

def relocate (s : Session σ) (id : String) (t : Target) : Session σ :=
  (s.attempt (.relocate id t)).2

/-- Changes the mode of a spacing control on a component, with the patch that goes with it. -/
def toggleSpacing (s : Session σ) (id : String) (k : Spacing.Control) :
    Spacing.Control × Session σ :=
  match s.find? id with
  | none => (k, s)
  | some c =>
    match k.toggle c with
    | (k, some patch) => (k, s.applyStyles id patch)
    | (k, none) => (k, s)

omit [IdSource σ]

/-- The style that counts for a component, empty where there is none. -/
def effective (s : Session σ) (id : String) (p : Property) : String :=
  match s.find? id with
  | some c => c.effective p
  | none => ""

def undo (s : Session σ) : Bool × Session σ :=
  match s.history.undo? s.components with
  | some (components, history) => (true, { s with history }.withComponents components)
  | none => (false, s)

def redo (s : Session σ) : Bool × Session σ :=
  match s.history.redo? s.components with
  | some (components, history) => (true, { s with history }.withComponents components)
  | none => (false, s)

/-- The edits that follow are taken back in one step. -/
def beginBatch (s : Session σ) (description : String) : Session σ :=
  { s with history := s.history.beginBatch.describeBatch description }

def endBatch (s : Session σ) : Session σ := { s with history := s.history.endBatch }

/-- Starts a receiver for saved and one for exported documents. -/
def listen (s : Session σ) : Session σ := { s with saved := some [], exported := some [] }

def save (s : Session σ) : Template × Session σ :=
  (s.template, { s with saved := s.saved.map (s.template :: ·) })

def html (s : Session σ) : String := Html.compileTemplate s.template {}

def exportHtml (s : Session σ) : String × Session σ :=
  (s.html, { s with exported := s.exported.map (s.html :: ·) })

end Session

end MailComposer
