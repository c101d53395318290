import MailComposer.Proofs.Mutation.Idle
import MailComposer.Proofs.Session.Batch

/-!
Edits that leave the forest as it is. The history looks at the kind of an edit and not at what it
has changed, so that such an edit counts as a step like any other: it can be taken back, with
nothing to see, and it closes the way forth.
-/
namespace MailComposer

namespace History
variable {α : Type}

/-- An open batch has its entry already. -/
def IsCaptured (h : History α) : Prop := ∃ d, h.batch = some ⟨true, d⟩

/-- The description of an entry: that of the open batch, if it has one. -/
def label (h : History α) (d : Option String) : Option String :=
  (h.batch.bind (·.description)).or d

private theorem snapshot_of_captured {h : History α} (hc : h.IsCaptured) (state : α)
    (d : Option String) : h.snapshot state d = h := by
  obtain ⟨name, hb⟩ := hc
  rw [snapshot, hb]
  rfl

private theorem snapshot_of_not_captured {h : History α} (hc : ¬ h.IsCaptured) (state : α)
    (d : Option String) :
    ((h.snapshot state d).past = ⟨state, h.label d⟩ ::
        if h.limit.any (·.steps ≤ h.undoLevels) then h.past.dropLast else h.past) ∧
      (h.snapshot state d).future = [] := by
  have recorded : ∀ name, trim h.limit (⟨state, name⟩ :: h.past) = ⟨state, name⟩ ::
      if h.limit.any (·.steps ≤ h.undoLevels) then h.past.dropLast else h.past :=
    fun name => trim_cons h.limit ⟨state, name⟩ h.past
  cases hb : h.batch with
  | none =>
    rw [snapshot, label, hb]
    exact ⟨recorded _, rfl⟩
  | some b =>
    obtain ⟨captured, name⟩ := b
    cases captured with
    | true => exact absurd ⟨name, hb⟩ hc
    | false =>
      rw [snapshot, label, hb]
      exact ⟨recorded _, rfl⟩

end History

namespace Session
open Component (idsIn)

variable {σ : Type} [IdSource σ]

/-- An edit that leaves the forest as it is counts as a step. Where ids are distinct, the idle
mutations are those edits. Unless an open batch has its entry already, the forest is laid on the
past, the way forth is closed, and the next step back leads to the forest that is there. -/
theorem idle_edit_is_step (s : Session σ) {m : Mutation} {created : Option String}
    {s' : Session σ} (h : s.apply m = .ok (created, s')) (hu : m.isUndoable = true) :
    ((idsIn s.components).Nodup → (s'.components = s.components ↔ m.Idle s.components)) ∧
      (s'.components = s.components →
        (s.history.IsCaptured → s'.history = s.history) ∧
        (¬ s.history.IsCaptured →
          (s'.history.past = ⟨s.components, s.history.label (some m.describe)⟩ ::
            if s.history.limit.any (·.steps ≤ s.history.undoLevels) then s.history.past.dropLast
            else s.history.past) ∧
          s'.history.future = [] ∧ s'.undo.1 = true ∧ s'.undo.2.components = s'.components)) := by
  obtain ⟨o, ids, ha, -, hs'⟩ := apply_eq_ok_iff.mp h
  rw [if_pos hu] at hs'
  have hcomponents : s'.components = o.components := congrArg components hs'
  have hhistory : s'.history = s.history.snapshot s.components (some m.describe) :=
    congrArg history hs'
  refine ⟨fun hn => ?idle, fun hsame => ⟨fun hc => ?captured, fun hc => ?recorded⟩⟩
  case idle =>
    rw [hcomponents]
    exact ha.components_eq_iff hn hu
  case captured =>
    rw [hhistory]
    exact History.snapshot_of_captured hc _ _
  case recorded =>
    obtain ⟨hpast, hfuture⟩ := History.snapshot_of_not_captured hc s.components (some m.describe)
    rw [← hhistory] at hpast hfuture
    have hforests := congrArg (List.map History.Entry.state) hpast
    obtain ⟨hundo, hback, -⟩ := undo_of_past (s := s') hforests
    exact ⟨hpast, hfuture, hundo, hback.trans hsame.symm⟩

/-- Two texts, the second of which has been taken back. -/
def halfUndone : Session SerialIds :=
  (opened .empty (.ofSeed "s") 0).run
    [.add "text" none none none, .add "text" none none none, .undo]

theorem idle_edit_is_step_halfUndone :
    let m : Mutation := .move (.named "s-1") .up
    let s' := (halfUndone.attempt m).2
    halfUndone.apply m = .ok (none, s') ∧
      m.isUndoable = true ∧ m.Idle halfUndone.components ∧ ¬ halfUndone.history.IsCaptured ∧
      s'.history.past = ⟨halfUndone.components, some "Move Up"⟩ :: halfUndone.history.past ∧
      s'.history.future = [] ∧ s'.undo.2.components = s'.components := by
  intro m s'
  have h : halfUndone.apply m = .ok (none, s') := rfl
  have hn : (idsIn halfUndone.components).Nodup := by decide
  have hc : ¬ halfUndone.history.IsCaptured := nofun
  have hsame : s'.components = halfUndone.components := by decide
  obtain ⟨hidle, hstep⟩ := idle_edit_is_step halfUndone h rfl
  obtain ⟨hpast, hfuture, -, hback⟩ := (hstep hsame).2 hc
  exact ⟨h, rfl, (hidle hn).mp hsame, hc, hpast, hfuture, hback⟩

/-- A step forth is lost to a move that goes nowhere. -/
theorem idle_move_drops_redo :
    let m : Mutation := .move (.named "s-1") .up
    let s' := (halfUndone.attempt m).2
    halfUndone.apply m = .ok (none, s') ∧ m.isUndoable = true ∧
      s'.components = halfUndone.components ∧
      ¬ (s'.history.past = halfUndone.history.past ∧
        s'.history.future = halfUndone.history.future) := by
  refine ⟨rfl, rfl, by decide, fun hkept => ?_⟩
  have hfuture := congrArg List.length hkept.2
  exact absurd hfuture (by decide)

end Session

end MailComposer
