import MailComposer.Proofs.Session.Run

/-!
Going back through a session and forth again. Live changes of fields leave no entry, so that an
entry holds what stood before the next edit rather than what the last one made.
-/
namespace MailComposer.Session
open Mutation (Applied)

variable {σ : Type}

def pastForests (s : Session σ) : List (List Component) := s.history.past.map (·.state)

def futureForests (s : Session σ) : List (List Component) := s.history.future.map (·.state)

/-- The session when `undo` is called a number of times. -/
def undone (s : Session σ) : Nat → Session σ
  | 0 => s
  | n + 1 => (s.undone n).undo.2

def redone (s : Session σ) : Nat → Session σ
  | 0 => s
  | n + 1 => (s.redone n).redo.2

theorem undo_of_past {s : Session σ} {tree : List Component} {rest : List (List Component)}
    (h : s.pastForests = tree :: rest) :
    s.undo.1 = true ∧ s.undo.2.components = tree ∧ s.undo.2.pastForests = rest ∧
      s.undo.2.futureForests = s.components :: s.futureForests := by
  obtain ⟨e, past, hp, rfl, rfl⟩ := List.map_eq_cons_iff.mp h
  have hu : s.history.undo? s.components = some (e.state, { s.history.reopen with
      past, future := ⟨s.components, e.description⟩ :: s.history.future }) := by
    rw [History.undo?, hp]
  rw [undo, hu]
  exact ⟨rfl, rfl, rfl, rfl⟩

theorem redo_of_future {s : Session σ} {tree : List Component} {rest : List (List Component)}
    (h : s.futureForests = tree :: rest) :
    s.redo.1 = true ∧ s.redo.2.components = tree ∧ s.redo.2.futureForests = rest := by
  obtain ⟨e, future, hf, rfl, rfl⟩ := List.map_eq_cons_iff.mp h
  have hr : s.history.redo? s.components = some (e.state, { s.history.reopen with
      past := ⟨s.components, e.description⟩ :: s.history.past, future }) := by
    rw [History.redo?, hf]
  rw [redo, hr]
  exact ⟨rfl, rfl, rfl⟩

/-- Steps back show the past from its newest entry on, and lay what they leave on the future. -/
theorem undone_of_past {s : Session σ} {trees rest : List (List Component)}
    (h : s.pastForests = trees ++ rest) {n : Nat} (hn : n ≤ trees.length) :
    (s.components :: trees)[n]? = some (s.undone n).components ∧
      (s.undone n).pastForests = trees.drop n ++ rest ∧
      (s.undone n).futureForests =
        ((s.components :: trees).take n).reverse ++ s.futureForests := by
  induction n with
  | zero => exact ⟨rfl, h, rfl⟩
  | succ n ih =>
    obtain ⟨hc, hp, hf⟩ := ih (Nat.le_of_succ_le hn)
    rw [List.drop_eq_getElem_cons hn, List.cons_append] at hp
    obtain ⟨-, hc', hp', hf'⟩ := undo_of_past hp
    refine ⟨?_, hp', ?_⟩
    · rw [List.getElem?_cons_succ, List.getElem?_eq_getElem hn, ← hc']
      rfl
    · rw [undone, hf', hf, List.take_add_one, hc, Option.toList_some, List.reverse_concat,
        List.cons_append]

private theorem undo_undone {s : Session σ} {trees rest : List (List Component)}
    (h : s.pastForests = trees ++ rest) {n : Nat} (hn : n < trees.length) :
    (s.undone n).undo.1 = true := by
  obtain ⟨-, hp, -⟩ := undone_of_past h (Nat.le_of_lt hn)
  rw [List.drop_eq_getElem_cons hn, List.cons_append] at hp
  exact (undo_of_past hp).1

private theorem redone_of_future {s : Session σ} {trees rest : List (List Component)}
    (h : s.futureForests = trees ++ rest) {n : Nat} (hn : n ≤ trees.length) :
    (s.components :: trees)[n]? = some (s.redone n).components ∧
      (s.redone n).futureForests = trees.drop n ++ rest := by
  induction n with
  | zero => exact ⟨rfl, h⟩
  | succ n ih =>
    obtain ⟨-, hf⟩ := ih (Nat.le_of_succ_le hn)
    rw [List.drop_eq_getElem_cons hn, List.cons_append] at hf
    obtain ⟨-, hc, hf'⟩ := redo_of_future hf
    refine ⟨?_, hf'⟩
    rw [List.getElem?_cons_succ, List.getElem?_eq_getElem hn, ← hc]
    rfl

private theorem redo_redone {s : Session σ} {trees rest : List (List Component)}
    (h : s.futureForests = trees ++ rest) {n : Nat} (hn : n < trees.length) :
    (s.redone n).redo.1 = true := by
  obtain ⟨-, hf⟩ := redone_of_future h (Nat.le_of_lt hn)
  rw [List.drop_eq_getElem_cons hn, List.cons_append] at hf
  exact (redo_of_future hf).1

section
variable [IdSource σ]

/-- Applies mutations in turn; one that is refused changes nothing. -/
def applyAll (s : Session σ) (ms : List Mutation) : Session σ :=
  ms.foldl (fun s m => (s.attempt m).2) s

/-- The forests just before each edit that goes through and can be taken back, in turn. -/
def checkpoints (s : Session σ) : List Mutation → List (List Component)
  | [] => []
  | m :: rest =>
    match s.apply m with
    | .error _ => s.checkpoints rest
    | .ok (_, s') =>
      if m.isUndoable then s.components :: s'.checkpoints rest else s'.checkpoints rest

/-- With no limit and no open batch, an edit lays the forest before it on the past. -/
theorem history_of_apply {s s' : Session σ} {m : Mutation} {r : Option String}
    (hl : s.history.limit = none) (hb : s.history.batch = none) (h : s.apply m = .ok (r, s')) :
    s'.history.limit = none ∧ s'.history.batch = none ∧
      s'.pastForests = (if m.isUndoable then [s.components] else []) ++ s.pastForests := by
  obtain ⟨o, ids, -, -, rfl⟩ := apply_eq_ok_iff.mp h
  simp only [withComponents, pastForests]
  split
  · simp [History.snapshot, hb, History.push, hl, History.trim]
  · exact ⟨hl, hb, rfl⟩

theorem pastForests_applyAll {s : Session σ} (hl : s.history.limit = none)
    (hb : s.history.batch = none) (ms : List Mutation) :
    (s.applyAll ms).pastForests = (s.checkpoints ms).reverse ++ s.pastForests := by
  induction ms generalizing s with
  | nil => rfl
  | cons m rest ih =>
    have hstep : s.applyAll (m :: rest) = (s.attempt m).2.applyAll rest := rfl
    rw [hstep, checkpoints]
    cases h : s.apply m with
    | error e =>
      rw [attempt_of_error h]
      exact ih hl hb
    | ok r =>
      obtain ⟨created, s'⟩ := r
      obtain ⟨hl', hb', hp⟩ := history_of_apply hl hb h
      rw [attempt_of_ok h, ih hl' hb', hp]
      dsimp only
      split <;> simp

/-- From `last`, as many steps back as there are `trees` show them, the last one first, and end at
the undo level of `start`; as many steps forth end at `last` again. -/
structure Rewinds (start last : Session σ) (trees : List (List Component)) : Prop where
  undo_true : ∀ k < trees.length, (last.undone k).undo.1 = true
  undo_shows : ∀ k < trees.length,
    trees[trees.length - 1 - k]? = some (last.undone (k + 1)).components
  undo_levels : (last.undone trees.length).history.undoLevels = start.history.undoLevels
  redo_true : ∀ k < trees.length, ((last.undone trees.length).redone k).redo.1 = true
  redo_last : ((last.undone trees.length).redone trees.length).components = last.components

/-- Mutations can be taken back one by one and made again, also where live changes and refused
mutations stand between them: no step back loses a live change made before it. -/
theorem rewinds_applyAll (s : Session σ) (hl : s.history.limit = none)
    (hb : s.history.batch = none) (ms : List Mutation) :
    Rewinds s (s.applyAll ms) (s.checkpoints ms) := by
  have hp := pastForests_applyAll hl hb ms
  generalize s.checkpoints ms = trees at hp ⊢
  generalize s.applyAll ms = last at hp ⊢
  have hn : trees.reverse.length = trees.length := List.length_reverse
  obtain ⟨-, hrest, hfuture⟩ := undone_of_past hp (Nat.le_of_eq hn.symm)
  have hlen : ((last.components :: trees.reverse).take trees.length).reverse.length =
      trees.length := by simp
  constructor
  case undo_true =>
    intro k hk
    exact undo_undone hp (by rw [hn]; exact hk)
  case undo_shows =>
    intro k hk
    obtain ⟨hc, -, -⟩ := undone_of_past hp (n := k + 1) (by rw [hn]; exact hk)
    rw [List.getElem?_cons_succ, List.getElem?_reverse hk] at hc
    exact hc
  case undo_levels =>
    have hu := congrArg List.length hrest
    simpa [pastForests, History.undoLevels] using hu
  case redo_true =>
    intro k hk
    exact redo_redone hfuture (by rw [hlen]; exact hk)
  case redo_last =>
    obtain ⟨hr, -⟩ := redone_of_future hfuture (Nat.le_of_eq hlen.symm)
    cases hz : trees.length with
    | zero => rfl
    | succ n =>
      rw [hz] at hr
      have ht : (trees.reverse.take n).reverse.length = n := by simp [hz]
      rw [List.getElem?_cons_succ, List.take_succ_cons, List.reverse_cons,
        List.getElem?_append_right (Nat.le_of_eq ht), ht, Nat.sub_self] at hr
      exact (Option.some.inj hr).symm

def draftEdits : List Mutation :=
  [.add "container" .root, .update "s-1" (.ofStyle .color "#111111"), .delete "s-9",
   .add "divider" (.inside "s-1"), .duplicate (.named "s-1"), .update "s-2" (.ofStyle .border "0")]

theorem rewinds_draft :
    let s : Session SerialIds := opened .empty (.ofSeed "s") 0
    s.history.limit = none ∧ s.history.batch = none ∧ (s.checkpoints draftEdits).length = 3 ∧
      Rewinds s (s.applyAll draftEdits) (s.checkpoints draftEdits) :=
  ⟨rfl, rfl, rfl, rewinds_applyAll _ rfl rfl _⟩

end

end MailComposer.Session
