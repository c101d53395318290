import Mathlib.Data.List.Induction
import MailComposer.Proofs.History.Capped

/-!
Steps back and forth through a history. Each of the two takes the other back, whatever has been
asked of the history before. What an open batch has recorded is the newest entry, and the way forth
is closed then.
-/
namespace MailComposer.History

variable {α : Type}

/-- Past and future in exchange. -/
def mirror (h : History α) : History α := { h with past := h.future, future := h.past }

private theorem answer?_redo (h : History α) (c : α) :
    h.answer? (.redo c) = h.mirror.answer? (.undo c) := by
  obtain ⟨past, future, limit, batch⟩ := h
  cases future <;> rfl

/-- A step forth is a step back through the mirrored history. -/
theorem follow_redo (h : History α) (c : α) :
    h.follow (.redo c) = (h.mirror.follow (.undo c)).mirror := by
  obtain ⟨past, future, limit, batch⟩ := h
  cases future <;> rfl

private theorem undo_of_answer {h : History α} {c p : α} (ha : h.answer? (.undo c) = some p) :
    ∃ d past, h.past = ⟨p, d⟩ :: past ∧
      h.follow (.undo c) = { h.reopen with past, future := ⟨c, d⟩ :: h.future } := by
  simp only [answer?, follow, undo?] at ha ⊢
  cases hp : h.past with
  | nil => simp [hp] at ha
  | cons e past =>
    rw [hp] at ha
    obtain rfl : e.state = p := Option.some.inj ha
    exact ⟨e.description, past, rfl, rfl⟩

/-- A step forth after a step back leads to where it started, with all entries as they were. -/
theorem redo_undo {h : History α} {c p : α} (ha : h.answer? (.undo c) = some p) :
    (h.follow (.undo c)).answer? (.redo p) = some c ∧
      (h.follow (.undo c)).follow (.redo p) = h.reopen := by
  obtain ⟨d, past, hp, hf⟩ := undo_of_answer ha
  rw [hf]
  refine ⟨rfl, ?_⟩
  simp only [follow, redo?, reopen, Option.elim_some, ← hp]
  cases h.batch <;> rfl

theorem undo_redo {h : History α} {c p : α} (ha : h.answer? (.redo c) = some p) :
    (h.follow (.redo c)).answer? (.undo p) = some c ∧
      (h.follow (.redo c)).follow (.undo p) = h.reopen := by
  rw [answer?_redo] at ha
  obtain ⟨hc, hb⟩ := redo_undo ha
  rw [answer?_redo] at hc
  rw [follow_redo] at hb
  rw [follow_redo]
  exact ⟨hc, congrArg mirror hb⟩

private theorem follow_of_no_answer {h : History α} {c : α} :
    (h.answer? (.undo c) = none → h.follow (.undo c) = h) ∧
      (h.answer? (.redo c) = none → h.follow (.redo c) = h) := by
  constructor <;> intro ha <;> rw [follow, Option.map_eq_none_iff.mp ha, Option.elim_none]

private theorem batch_reopen (h : History α) (name : Option String) :
    h.reopen.batch ≠ some ⟨true, name⟩ := by
  rw [reopen]
  cases h.batch with
  | none => simp
  | some b => simp

/-- A step back or forth that succeeds opens the batch for a new entry. -/
theorem no_answer_of_captured {h : History α} {c : α} {name : Option String} :
    ((h.follow (.undo c)).batch = some ⟨true, name⟩ → h.answer? (.undo c) = none) ∧
      ((h.follow (.redo c)).batch = some ⟨true, name⟩ → h.answer? (.redo c) = none) := by
  have back : ∀ h : History α, (h.follow (.undo c)).batch = some ⟨true, name⟩ →
      h.answer? (.undo c) = none := by
    intro h hb
    cases ha : h.answer? (.undo c) with
    | none => rfl
    | some p =>
      obtain ⟨d, past, -, hf⟩ := undo_of_answer ha
      rw [hf] at hb
      exact absurd hb (batch_reopen h name)
  refine ⟨back h, fun hb => ?_⟩
  rw [follow_redo] at hb
  rw [answer?_redo]
  exact back h.mirror hb

private theorem answer?_eq_none {h : History α} {c : α} :
    (h.answer? (.undo c) = none ↔ h.past = []) ∧
      (h.answer? (.redo c) = none ↔ h.future = []) := by
  constructor
  · rw [answer?, undo?]
    cases h.past <;> simp
  · rw [answer?, redo?]
    cases h.future <;> simp

/-- Steps that neither begin, end nor clear a batch and take nothing back. -/
def Step.staysAhead : Step α → Bool
  | .snapshot .. | .redo _ | .describeBatch _ => true
  | .undo _ | .beginBatch | .endBatch | .clear => false

/-- The newest entry is the open batch's own: the batch recorded it at a step before which it had
none, under its latest name if it has one, and has gone on without a step back since. The entries
below are those that were there before, as far as the limit leaves them. -/
def OwnEntry (start : History α) (steps : List (Step α)) (name : Option String) : Prop :=
  ∃ earlier state d later older, steps = earlier ++ .snapshot state d :: later ∧
    (∃ n, (start.run earlier).batch = some ⟨false, n⟩) ∧ (∀ x ∈ later, x.staysAhead = true) ∧
    (start.run steps).past = ⟨state, name.or d⟩ :: older ∧ older <+: (start.run earlier).past

private theorem run_concat (h : History α) (steps : List (Step α)) (x : Step α) :
    h.run (steps ++ [x]) = (h.run steps).follow x :=
  List.foldl_append

section
variable {start : History α} {steps : List (Step α)}

/-- The first step that an open batch records makes its entry. -/
private theorem ownEntry_snapshot {name : Option String}
    (hb : (start.run steps).batch = some ⟨false, name⟩) (state : α) (d : Option String) :
    OwnEntry start (steps ++ [.snapshot state d]) name ∧
      ((start.run steps).follow (.snapshot state d)).future = [] := by
  have hrun : (start.run steps).follow (.snapshot state d) =
      { start.run steps with batch := some ⟨true, name⟩ }.push ⟨state, name.or d⟩ := by
    simp only [follow, snapshot, hb, Bool.false_eq_true, if_false]
  refine ⟨⟨steps, state, d, [],
    if (start.run steps).limit.any (·.steps ≤ (start.run steps).past.length) then
      (start.run steps).past.dropLast else (start.run steps).past,
    rfl, ⟨name, hb⟩, List.forall_mem_nil _, ?_, ?_⟩, by rw [hrun]; rfl⟩
  · rw [run_concat, hrun]
    exact trim_cons _ _ _
  · split
    · exact List.dropLast_prefix _
    · exact List.prefix_refl _

/-- A step that leaves the newest entry, or gives it the new name of the batch, leaves it the
batch's own. -/
private theorem OwnEntry.concat {name name' : Option String} (h : OwnEntry start steps name)
    {x : Step α} (hx : x.staysAhead = true)
    (hpast : ∀ {state d older}, (start.run steps).past = ⟨state, name.or d⟩ :: older →
      ((start.run steps).follow x).past = ⟨state, name'.or d⟩ :: older) :
    OwnEntry start (steps ++ [x]) name' := by
  obtain ⟨earlier, state, d, later, older, hs, hopen, hlater, hp, hpre⟩ := h
  refine ⟨earlier, state, d, later ++ [x], older, ?_, hopen, ?_, ?_, hpre⟩
  · rw [hs, List.append_assoc, List.cons_append]
  · exact List.forall_mem_append.mpr ⟨hlater, List.forall_mem_singleton.mpr hx⟩
  · rw [run_concat]
    exact hpast hp

private theorem OwnEntry.past_ne_nil {name : Option String} (h : OwnEntry start steps name) :
    (start.run steps).past ≠ [] := by
  obtain ⟨_, _, _, _, _, -, -, -, hp, -⟩ := h
  rw [hp]
  exact List.cons_ne_nil _ _

/-- If the open batch has recorded an entry, it is the newest one, with nothing to go forth to. -/
def RecordsOwn (start : History α) (steps : List (Step α)) : Prop :=
  ∀ name, (start.run steps).batch = some ⟨true, name⟩ →
    OwnEntry start steps name ∧ (start.run steps).future = []

namespace RecordsOwn

/-- A step that leaves the whole history as it is. -/
theorem idle (h : RecordsOwn start steps) {x : Step α} (hx : x.staysAhead = true)
    (hrun : (start.run steps).follow x = start.run steps) : RecordsOwn start (steps ++ [x]) := by
  intro name hname
  rw [run_concat, hrun] at hname ⊢
  obtain ⟨hown, hfuture⟩ := h name hname
  exact ⟨hown.concat hx fun hp => by rw [hrun, hp], hfuture⟩

theorem snapshot (h : RecordsOwn start steps) (state : α) (d : Option String) :
    RecordsOwn start (steps ++ [.snapshot state d]) := by
  cases hbatch : (start.run steps).batch with
  | none =>
    intro name hname
    simp [run_concat, follow, History.snapshot, hbatch, push] at hname
  | some b =>
    obtain ⟨captured, name'⟩ := b
    cases captured with
    | false =>
      intro name hname
      rw [run_concat] at hname ⊢
      obtain rfl : name' = name := by
        simpa [follow, History.snapshot, hbatch, push] using hname
      exact ownEntry_snapshot hbatch state d
    | true => exact h.idle rfl (by simp only [follow, History.snapshot, hbatch, if_true])

theorem undo (h : RecordsOwn start steps) (c : α) :
    RecordsOwn start (steps ++ [.undo c]) := by
  intro name hname
  rw [run_concat] at hname
  -- A step back would have opened the batch, and there is an entry to go back to.
  have ha := no_answer_of_captured.1 hname
  rw [follow_of_no_answer.1 ha] at hname
  exact absurd (answer?_eq_none.1.mp ha) (h name hname).1.past_ne_nil

theorem redo (h : RecordsOwn start steps) (c : α) :
    RecordsOwn start (steps ++ [.redo c]) := by
  intro name hname
  have hcaptured := hname
  rw [run_concat] at hcaptured
  exact h.idle rfl (follow_of_no_answer.2 (no_answer_of_captured.2 hcaptured)) name hname

theorem describeBatch (h : RecordsOwn start steps) (d : String) :
    RecordsOwn start (steps ++ [.describeBatch d]) := by
  intro name hname
  rw [run_concat] at hname ⊢
  cases hbatch : (start.run steps).batch with
  | none => simp [follow, History.describeBatch, hbatch] at hname
  | some b =>
    obtain ⟨captured, name'⟩ := b
    have hrun : ((start.run steps).follow (.describeBatch d)).batch =
        some ⟨captured, some d⟩ := by rw [follow, History.describeBatch, hbatch]
    obtain ⟨rfl, rfl⟩ : captured = true ∧ some d = name := by simpa [hrun] using hname
    obtain ⟨hown, hfuture⟩ := h name' hbatch
    refine ⟨hown.concat rfl fun hp => ?_, ?_⟩
    · simp only [follow, History.describeBatch, hbatch, hp, if_true, describeNewest,
        Option.some_or]
    · rw [follow, History.describeBatch, hbatch]
      exact hfuture

/-- No step of a run breaks it. -/
theorem run {start : History α} (hb : start.batch = none) (steps : List (Step α)) :
    RecordsOwn start steps := by
  induction steps using List.reverseRecOn with
  | nil =>
    intro name hname
    exact absurd (hb.symm.trans hname) nofun
  | append_singleton steps x ih =>
    cases x with
    | snapshot state d => exact ih.snapshot state d
    | undo c => exact ih.undo c
    | redo c => exact ih.redo c
    | describeBatch d => exact ih.describeBatch d
    | beginBatch | endBatch | clear =>
      intro name hname
      rw [run_concat] at hname
      cases hname

end RecordsOwn

end

/-- However a history was come by, a step forth takes back the step back before it, and a step back
the step forth: the state is the one it started from, and all entries are as they were. Such a step
fails only where there is none to take, and changes nothing then. What an open batch has recorded
is the newest entry, and the way forth is closed. -/
theorem steps_inverse (n : Nat) (steps : List (Step α)) (c : α) :
    let h := (bounded n).run steps
    (∀ p, h.answer? (.undo c) = some p →
      (h.follow (.undo c)).answer? (.redo p) = some c ∧
        ((h.follow (.undo c)).follow (.redo p)).past = h.past ∧
        ((h.follow (.undo c)).follow (.redo p)).future = h.future) ∧
      (∀ p, h.answer? (.redo c) = some p →
        (h.follow (.redo c)).answer? (.undo p) = some c ∧
          ((h.follow (.redo c)).follow (.undo p)).past = h.past ∧
          ((h.follow (.redo c)).follow (.undo p)).future = h.future) ∧
      (h.answer? (.undo c) = none → h.past = [] ∧ h.follow (.undo c) = h) ∧
      (h.answer? (.redo c) = none → h.future = [] ∧ h.follow (.redo c) = h) ∧
      ∀ name, h.batch = some ⟨true, name⟩ →
        OwnEntry (bounded n) steps name ∧ h.past ≠ [] ∧ h.future = [] := by
  intro h
  refine ⟨fun p hp => ?_, fun p hp => ?_, fun hn => ?_, fun hn => ?_, fun name hname => ?_⟩
  · obtain ⟨ha, hf⟩ := redo_undo hp
    exact ⟨ha, by rw [hf]; rfl, by rw [hf]; rfl⟩
  · obtain ⟨ha, hf⟩ := undo_redo hp
    exact ⟨ha, by rw [hf]; rfl, by rw [hf]; rfl⟩
  · exact ⟨answer?_eq_none.1.mp hn, follow_of_no_answer.1 hn⟩
  · exact ⟨answer?_eq_none.2.mp hn, follow_of_no_answer.2 hn⟩
  · obtain ⟨hown, hfuture⟩ := RecordsOwn.run rfl steps name hname
    exact ⟨hown, hown.past_ne_nil, hfuture⟩

/-- A batch that takes its name after its first edit, with one edit before it that the limit
keeps. -/
def namedSteps : List (Step Nat) :=
  [.snapshot 0 none, .snapshot 1 none, .beginBatch, .snapshot 2 (some "Add text"),
   .snapshot 3 none, .describeBatch "Two texts"]

theorem steps_inverse_named :
    let h := (bounded 2).run namedSteps
    (h.answer? (.undo 4) = some 2 ∧ (h.follow (.undo 4)).answer? (.redo 2) = some 4 ∧
        ((h.follow (.undo 4)).follow (.redo 2)).past = h.past) ∧
      ((h.follow (.undo 4)).answer? (.redo 2) = some 4 ∧
        ((h.follow (.undo 4)).follow (.redo 2)).answer? (.undo 4) = some 2) ∧
      (h.answer? (.redo 4) = none ∧ h.follow (.redo 4) = h) ∧
      h.batch = some ⟨true, some "Two texts"⟩ ∧
      OwnEntry (bounded 2) namedSteps (some "Two texts") ∧
      h.past = [⟨2, some "Two texts"⟩, ⟨1, none⟩] := by
  obtain ⟨hundo, -, -, hstay, hown⟩ := steps_inverse 2 namedSteps 4
  obtain ⟨-, hredo, -⟩ := steps_inverse 2 (namedSteps ++ [.undo 4]) 2
  obtain ⟨hback, hpast, -⟩ := hundo 2 rfl
  exact ⟨⟨rfl, hback, hpast⟩, ⟨rfl, (hredo 4 rfl).1⟩, ⟨rfl, (hstay rfl).2⟩, rfl,
    (hown (some "Two texts") rfl).1, rfl⟩

end MailComposer.History
