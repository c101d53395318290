import MailComposer.Proofs.History.Capped
import MailComposer.Proofs.Session.Rewind

/-!
Batches: the edits between the opening and the end of a batch leave one entry, with the forest
before the first of them. Only that edit is recorded, so that a batch without such an edit leaves no
trace.
-/
namespace MailComposer

namespace History
variable {α : Type}

/-- The history of a batch that is open under a description and has recorded nothing yet. -/
def opening (h : History α) (description : String) : History α :=
  { h with batch := some ⟨false, some description⟩ }

/-- The history of a batch that has recorded the state before its first edit. -/
def recording (h : History α) (description : String) (state : α) : History α :=
  { h.push ⟨state, some description⟩ with batch := some ⟨true, some description⟩ }

/-- The description of the batch comes before that of the edit. -/
private theorem snapshot_opening (h : History α) (description : String) (state : α)
    (d : Option String) :
    (h.opening description).snapshot state d = h.recording description state := rfl

private theorem snapshot_recording (h : History α) (description : String) (first state : α)
    (d : Option String) :
    (h.recording description first).snapshot state d = h.recording description first := rfl

end History

namespace Session

variable {σ : Type} [IdSource σ]

/-- Requests that neither open or end a batch nor go back or forth. -/
def Action.withinBatch : Action → Bool
  | .undo | .redo | .beginBatch _ | .endBatch => false
  | _ => true

/-- Whether an action is an edit that goes through and can be taken back. -/
def records (s : Session σ) (a : Action) : Bool :=
  (s.mutation? a).any fun m => m.isUndoable && (s.apply m).isOk

/-- The forest just before the first edit that goes through and can be taken back. -/
def checkpoint? (s : Session σ) : List Action → Option (List Component)
  | [] => none
  | a :: rest => if s.records a then some s.components else (s.perform a).checkpoint? rest

private theorem history_attempt (s : Session σ) (m : Mutation) :
    (s.attempt m).2.history = if m.isUndoable && (s.apply m).isOk then
      s.history.snapshot s.components (some m.describe) else s.history := by
  cases h : s.apply m with
  | error e =>
    rw [attempt_of_error h, Except.isOk, Except.toBool, Bool.and_false]
    rfl
  | ok r =>
    obtain ⟨o, ids, -, -, hs⟩ := apply_eq_ok_iff.mp h
    rw [attempt_of_ok h, hs, Except.isOk, Except.toBool, Bool.and_true]
    rfl

private theorem history_of_not_records {s : Session σ} {a : Action} (ha : a.withinBatch = true)
    (hr : s.records a = false) : (s.perform a).history = s.history := by
  cases hm : s.mutation? a with
  | some m =>
    rw [records, hm, Option.any_some] at hr
    rw [perform_of_mutation? hm, history_attempt, hr]
    rfl
  | none =>
    cases a with
    | toggleSpacing i k => rw [perform_toggleSpacing hm]
    | select i =>
      simp only [perform, select]
      split <;> rfl
    | clearSelection | setName | setCanvas | save | exportHtml => rfl
    | undo | redo | beginBatch | endBatch => cases ha
    | _ => cases hm

private theorem history_of_records {s : Session σ} {a : Action} (hr : s.records a = true) :
    ∃ d, (s.perform a).history = s.history.snapshot s.components d := by
  obtain ⟨m, hm, hu⟩ := (Option.any_eq_true _ _).mp hr
  refine ⟨some m.describe, ?_⟩
  rw [perform_of_mutation? hm, history_attempt, if_pos hu]

/-- Once a batch has an entry, its history stays as it is. -/
private theorem history_run_recording {s : Session σ} {h : History (List Component)} {d : String}
    {first : List Component} (hs : s.history = h.recording d first) {actions : List Action}
    (ha : ∀ a ∈ actions, a.withinBatch = true) :
    (s.run actions).history = h.recording d first := by
  induction actions generalizing s with
  | nil => exact hs
  | cons a rest ih =>
    obtain ⟨hb, hrest⟩ := List.forall_mem_cons.mp ha
    refine ih (s := s.perform a) ?_ hrest
    cases hr : s.records a with
    | false => rw [history_of_not_records hb hr, hs]
    | true =>
      obtain ⟨e, he⟩ := history_of_records hr
      rw [he, hs, History.snapshot_recording]

/-- A run inside a batch records the first edit that can be taken back, or nothing. -/
theorem history_run_opening {s : Session σ} {h : History (List Component)} {d : String}
    (hs : s.history = h.opening d) {actions : List Action}
    (ha : ∀ a ∈ actions, a.withinBatch = true) :
    (s.run actions).history = (s.checkpoint? actions).elim (h.opening d) (h.recording d) := by
  induction actions generalizing s with
  | nil => exact hs
  | cons a rest ih =>
    obtain ⟨hb, hrest⟩ := List.forall_mem_cons.mp ha
    rw [checkpoint?]
    cases hr : s.records a with
    | false => exact ih ((history_of_not_records hb hr).trans hs) hrest
    | true =>
      obtain ⟨e, he⟩ := history_of_records hr
      rw [hs, History.snapshot_opening] at he
      exact history_run_recording he hrest

/-- Whatever is edited in a batch is taken back in one step. Where nothing was recorded the batch
leaves the history as it was. Else one entry under the name of the batch was added, with the forest
just before the first edit, so that no live change made before that edit is lost; the step after it
leads to the forest at the end of the batch again. -/
theorem batch_is_one_step (s : Session σ) (d : String) (actions : List Action)
    (ha : ∀ a ∈ actions, a.withinBatch = true) :
    let last := ((s.beginBatch d).run actions).endBatch
    ((s.beginBatch d).checkpoint? actions = none →
      last.history.past = s.history.past ∧ last.history.future = s.history.future) ∧
    ∀ tree, (s.beginBatch d).checkpoint? actions = some tree →
      (last.history.past = ⟨tree, some d⟩ ::
        if s.history.limit.any (·.steps ≤ s.history.undoLevels) then s.history.past.dropLast
        else s.history.past) ∧
      last.history.future = [] ∧ last.history.undoDescription = some d ∧
      last.undo.1 = true ∧ last.undo.2.components = tree ∧
      last.undo.2.redo.1 = true ∧ last.undo.2.redo.2.components = last.components := by
  intro last
  have hrun := history_run_opening (s := s.beginBatch d) rfl ha
  have hlast : last.history = ((s.beginBatch d).run actions).history.endBatch := rfl
  rw [hrun] at hlast
  constructor
  · intro hnone
    rw [hlast, hnone]
    exact ⟨rfl, rfl⟩
  · intro tree htree
    rw [htree] at hlast
    have hpast : last.history.past = ⟨tree, some d⟩ ::
        if s.history.limit.any (·.steps ≤ s.history.undoLevels) then s.history.past.dropLast
        else s.history.past := by
      rw [hlast]
      exact History.trim_cons _ _ _
    have hfuture : last.history.future = [] := by
      rw [hlast]
      rfl
    have hforests := congrArg (List.map History.Entry.state) hpast
    obtain ⟨hu, hc, -, hf⟩ := undo_of_past (s := last) hforests
    obtain ⟨hr, hc', -⟩ := redo_of_future hf
    refine ⟨hpast, hfuture, ?_, hu, hc, hr, hc'⟩
    rw [History.undoDescription, hpast]
    rfl

/-- One step back is all that the history keeps, and it holds a copy made before the batch. -/
def footerSession : Session SerialIds :=
  (opened { components := [.leaf "a" .empty .divider] } (.ofSeed "s") 1).run
    [.duplicate (.named "a")]

/-- A live change and a refused edit come before the first edit that is recorded. -/
def footerEdits : List Action :=
  [.applyStyles "a" (StyleMap.empty.set .color "#111111"), .delete "gone", .drop "container" .root,
   .select "s-2", .add "text" none (some "s-2") none, .move (.named "s-2") .up,
   .applyStyles "s-1" (StyleMap.empty.set .color "#222222")]

theorem batch_is_one_step_footer :
    let last := ((footerSession.beginBatch "Insert footer").run footerEdits).endBatch
    let tree : List Component :=
      [.leaf "a" (StyleMap.empty.set .color "#111111") .divider, .leaf "s-1" .empty .divider]
    (∀ a ∈ footerEdits, a.withinBatch = true) ∧
      (footerSession.beginBatch "Insert footer").checkpoint? footerEdits = some tree ∧
      footerSession.history.past ≠ [] ∧ last.history.past = [⟨tree, some "Insert footer"⟩] ∧
      last.undo.2.components = tree ∧ last.undo.2.redo.2.components = last.components := by
  have ha : ∀ a ∈ footerEdits, a.withinBatch = true := by decide
  have htree : (footerSession.beginBatch "Insert footer").checkpoint? footerEdits =
      some [.leaf "a" (StyleMap.empty.set .color "#111111") .divider,
        .leaf "s-1" .empty .divider] := by decide
  obtain ⟨-, hb⟩ := batch_is_one_step footerSession "Insert footer" footerEdits ha
  obtain ⟨hpast, -, -, -, hu, -, hr⟩ := hb _ htree
  exact ⟨ha, htree, by decide, hpast, hu, hr⟩

end Session

end MailComposer
