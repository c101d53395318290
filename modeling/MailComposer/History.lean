/-!
Histories: states to return to, for a state that changes step by step. Steps made in an open batch
are taken back together.
-/
namespace MailComposer

structure History.Entry (α : Type) where
  state : α
  description : Option String
deriving DecidableEq, Repr

/-- A batch has been captured once the state before its first step is recorded. -/
structure History.Batch where
  captured : Bool := false
  description : Option String := none
deriving DecidableEq, Repr

/-- The number of steps that can be taken back at most. There is no limit of 0. -/
structure History.Limit where
  steps : Nat
  pos : 0 < steps
deriving DecidableEq, Repr

/-- The newest entry stands first on both sides. -/
structure History (α : Type) where
  past : List (History.Entry α) := []
  future : List (History.Entry α) := []
  limit : Option History.Limit := none
  batch : Option History.Batch := none
deriving DecidableEq, Repr

namespace History

variable {α : Type}

def empty : History α := {}

/-- At most `n` steps back; no limit where `n` is 0. -/
def bounded (n : Nat) : History α := { limit := if h : 0 < n then some ⟨n, h⟩ else none }

/-- Drops the oldest entry of a list that has outgrown the limit. -/
def trim (limit : Option Limit) (es : List (Entry α)) : List (Entry α) :=
  match limit with
  | some l => if l.steps < es.length then es.dropLast else es
  | none => es

/-- A new step makes what was taken back unreachable. -/
def push (h : History α) (e : Entry α) : History α :=
  { h with past := trim h.limit (e :: h.past), future := [] }

/-- Records the state before a step. In a batch only the first of them counts. -/
def snapshot (h : History α) (state : α) (description : Option String := none) : History α :=
  match h.batch with
  | none => h.push ⟨state, description⟩
  | some b =>
    if b.captured then h
    else { h with batch := some { b with captured := true } }.push
      ⟨state, b.description.or description⟩

def beginBatch (h : History α) : History α := { h with batch := some {} }

def endBatch (h : History α) : History α := { h with batch := none }

def describeNewest (description : String) : List (Entry α) → List (Entry α)
  | [] => []
  | e :: es => { e with description := some description } :: es

/-- Names the open batch, and its entry if it has one already. -/
def describeBatch (h : History α) (description : String) : History α :=
  match h.batch with
  | none => h
  | some b =>
    { h with
      past := if b.captured then describeNewest description h.past else h.past
      batch := some { b with description := some description } }

/-- The next step in an open batch is recorded anew. -/
def reopen (h : History α) : History α :=
  { h with batch := h.batch.map fun b => { b with captured := false } }

/-- The state to return to, while the current one can be come back to. -/
def undo? (h : History α) (current : α) : Option (α × History α) :=
  match h.past with
  | [] => none
  | e :: past =>
    some (e.state, { h.reopen with past, future := ⟨current, e.description⟩ :: h.future })

def redo? (h : History α) (current : α) : Option (α × History α) :=
  match h.future with
  | [] => none
  | e :: future =>
    some (e.state, { h.reopen with past := ⟨current, e.description⟩ :: h.past, future })

def canUndo (h : History α) : Bool := !h.past.isEmpty

def canRedo (h : History α) : Bool := !h.future.isEmpty

def undoLevels (h : History α) : Nat := h.past.length

def redoLevels (h : History α) : Nat := h.future.length

def undoDescription (h : History α) : Option String := h.past.head?.bind (·.description)

def redoDescription (h : History α) : Option String := h.future.head?.bind (·.description)

def isBatching (h : History α) : Bool := h.batch.isSome

def clear (h : History α) : History α := { h with past := [], future := [], batch := none }

end History

end MailComposer
