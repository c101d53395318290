import MailComposer.Proofs.Session.Run

/-!
Edits made in place, step after step on one session. A step that fails keeps what the steps before
it have written; a mutation that is refused has written nothing by then.
-/
namespace MailComposer

/-- Steps on a state of their own. What has been written stays where a later step fails. -/
abbrev InPlace (ρ : Type) : Type → Type := ExceptT MutationError (StateM ρ)

private theorem bind_inPlace {ρ α β : Type} (x : InPlace ρ α) (f : α → InPlace ρ β) (s : ρ) :
    (x >>= f) s =
      match x s with
      | (.ok a, s') => f a s'
      | (.error e, s') => (.error e, s') := by
  simp only [bind, ExceptT.bind, ExceptT.mk, StateT.bind]
  cases x s with
  | mk r s' => cases r <;> rfl

/-- The end of steps that give back their state only where none of them fails. -/
def settled {ρ α : Type} (start : ρ) : Except MutationError (α × ρ) → Except MutationError α × ρ
  | .ok (a, s) => (.ok a, s)
  | .error e => (.error e, start)

variable {σ : Type} [IdSource σ]

namespace Mutation

/-- An id that has been drawn is spent, whatever comes after it. -/
def draw : InPlace σ String := modifyGet IdSource.next

def steps (tree : List Component) (m : Mutation) : InPlace σ Outcome := do
  m.validate tree
  match m with
  | .add type t => do
    let p ← preset type
    let i ← draw
    return ⟨Tree.add tree (p.build i) t, some i⟩
  | .update i p => return ⟨Tree.update tree i p, none⟩
  | .delete i => return ⟨Tree.delete tree i, none⟩
  | .move r d => do
    let i ← resolve tree r
    return ⟨Tree.move tree i d, none⟩
  | .duplicate r => do
    let i ← resolve tree r
    modifyGet fun ids =>
      let (copy, tree, ids) := Tree.duplicate tree i ids
      (⟨tree, copy⟩, ids)
  | .relocate i t => return ⟨Tree.relocate tree i t, none⟩

private theorem apply_eq_error_iff {tree : List Component} {ids : σ} {m : Mutation}
    {e : MutationError} : m.apply tree ids = .error e ↔ m.validate tree = .error e := by
  cases hv : m.validate tree with
  | error e' =>
    have ha : m.apply tree ids = .error e' := by
      simp only [apply, hv]
      rfl
    rw [ha, Except.error.injEq, Except.error.injEq]
  | ok =>
    obtain ⟨o, ids', h⟩ := applied_of_validate hv ids
    simp [apply_eq_ok_iff.mpr h]

theorem steps_eq (tree : List Component) (ids : σ) (m : Mutation) :
    m.steps tree ids = settled ids (m.apply tree ids) := by
  cases hv : m.validate tree with
  | error e =>
    simp only [steps, apply, hv]
    rfl
  | ok =>
    -- What is looked up once more has been found by the checks.
    cases m with
    | add type t =>
      obtain ⟨p, hp, _⟩ := bind_eq_ok.mp hv
      simp only [steps, apply, hv, hp]
      rfl
    | move r d =>
      obtain ⟨i, hi, _⟩ := map_eq_ok.mp hv
      simp only [steps, apply, hv, hi]
      rfl
    | duplicate r =>
      obtain ⟨i, hi, _⟩ := map_eq_ok.mp hv
      simp only [steps, apply, hv, hi, Tree.siblingAfter?_duplicate]
      rfl
    | update | delete | relocate =>
      simp only [steps, apply, hv]
      rfl

end Mutation

namespace Session

/-- Steps on the source of ids. -/
def onIds {α : Type} (x : InPlace σ α) : InPlace (Session σ) α := fun s =>
  let (r, ids) := x s.ids
  (r, { s with ids })

def edit (m : Mutation) : InPlace (Session σ) (Option String) := do
  let s ← get
  let outcome ← onIds (m.steps s.components)
  if m.isUndoable then
    modify fun s => { s with history := s.history.snapshot s.components (some m.describe) }
  modify (·.withComponents outcome.components)
  return outcome.created

/-- Gives nothing where the edit fails, with the session as the edit leaves it. -/
def editQuietly (m : Mutation) : StateM (Session σ) (Option String) := do
  match ← (edit m).run with
  | .ok created => return created
  | .error _ => return none

/-- An edit in place ends as the edit that is made all at once. -/
theorem edit_eq (s : Session σ) (m : Mutation) : edit m s = settled s (s.apply m) := by
  have hs : onIds (m.steps s.components) s =
      ((settled s.ids (m.apply s.components s.ids)).1,
        { s with ids := (settled s.ids (m.apply s.components s.ids)).2 }) := by
    rw [← Mutation.steps_eq]
    rfl
  unfold edit
  rw [bind_inPlace]
  change ((onIds (m.steps s.components)) >>= _ : InPlace _ _) s = _
  rw [bind_inPlace, hs, apply]
  cases m.apply s.components s.ids with
  | error e => rfl
  | ok r => cases m.isUndoable <;> rfl

private theorem editQuietly_eq (s : Session σ) (m : Mutation) : editQuietly m s = s.attempt m := by
  have he := edit_eq s m
  unfold editQuietly attempt
  change StateT.bind (edit m) _ s = _
  cases ha : s.apply m with
  | error e =>
    rw [ha] at he
    simp only [StateT.bind, bind, he]
    rfl
  | ok r =>
    rw [ha] at he
    simp only [StateT.bind, bind, he]
    rfl

/-- What the method for a mutation does where the mutation is refused. -/
def Ignores (s : Session σ) : Mutation → Prop
  | .add type t =>
    s.drop type t = (none, s) ∧ s.add type t.index t.parent t.column = (none, s)
  | .update i p => s.update i p = s
  | .delete i => s.delete i = s
  | .move r d => s.move r d = s
  | .duplicate r => s.duplicate r = (none, s)
  | .relocate i t => s.relocate i t = s

private theorem ignores_of_attempt {s : Session σ} {m : Mutation} (h : s.attempt m = (none, s)) :
    s.Ignores m := by
  cases m with
  | add type t => exact ⟨h, h⟩
  | duplicate r => exact h
  | update | delete | move | relocate => exact congrArg Prod.snd h

private theorem apply_eq_error {s : Session σ} {m : Mutation} {e : MutationError} :
    s.apply m = .error e ↔ m.validate s.components = .error e := by
  rw [apply, Mutation.bind_eq_error, Mutation.apply_eq_error_iff]
  refine or_iff_left ?_
  rintro ⟨_, _, h⟩
  cases h

/-- An edit fails just where the checks fail, and then nothing in the session has changed. -/
theorem refused_unchanged (s : Session σ) (m : Mutation) (e : MutationError) :
    (s.apply m = .error e ↔ m.validate s.components = .error e) ∧
      ((edit m s).1 = .error e ↔ m.validate s.components = .error e) ∧
      (m.validate s.components = .error e →
        (edit m s).2 = s ∧ editQuietly m s = (none, s) ∧ s.Ignores m) := by
  refine ⟨apply_eq_error, ?_, fun hv => ?_⟩
  · rw [edit_eq, ← apply_eq_error]
    cases s.apply m <;> simp [settled]
  · have ha := apply_eq_error.mpr hv
    have hq := attempt_of_error ha
    refine ⟨?_, (editQuietly_eq s m).trans hq, ignores_of_attempt hq⟩
    rw [edit_eq, ha]
    rfl

/-- A divider and a container that share their id, in an open batch with steps on both sides. -/
def sharedId : Session SerialIds :=
  (opened { components := [.leaf "a" .empty .divider,
      .container "a" .empty [.leaf "b" .empty (.spacer "8px")]] } (.ofSeed "s") 2).run
    [.duplicate (.named "b"), .select "b", .beginBatch "Tidy up", .delete "s-1", .undo]

theorem refused_unchanged_sharedId :
    let m : Mutation := .relocate "b" (.inside "a")
    sharedId.history.batch = some ⟨false, some "Tidy up"⟩ ∧
      m.validate sharedId.components = .error (.childless .divider) ∧
      sharedId.apply m = .error (.childless .divider) ∧
      (edit m sharedId).1 = .error (.childless .divider) ∧ (edit m sharedId).2 = sharedId ∧
      editQuietly m sharedId = (none, sharedId) ∧ sharedId.Ignores m := by
  have hv : Mutation.validate sharedId.components (.relocate "b" (.inside "a")) =
      .error (.childless .divider) := by decide
  obtain ⟨ha, he, hs⟩ := refused_unchanged sharedId (.relocate "b" (.inside "a")) _
  exact ⟨by decide, hv, ha.mpr hv, he.mpr hv, hs hv⟩

end Session

end MailComposer
