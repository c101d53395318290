import MailComposer.History

/-!
A history with a limit beside one without, when both are asked for the same. The oldest entries are
all that the limit takes away: as long as no step back needs one of them, nothing else differs.
-/
namespace MailComposer.History

/-- What can be asked of a history, with the current state where it is needed. -/
inductive Step (α : Type) where
  | snapshot (state : α) (description : Option String)
  | undo (current : α)
  | redo (current : α)
  | beginBatch
  | endBatch
  | describeBatch (description : String)
  | clear

def Step.isUndo {α : Type} : Step α → Bool
  | .undo _ => true
  | _ => false

variable {α : Type}

/-- The state that a step back or forth leads to. -/
def answer? (h : History α) : Step α → Option α
  | .undo current => (h.undo? current).map Prod.fst
  | .redo current => (h.redo? current).map Prod.fst
  | _ => none

def follow (h : History α) : Step α → History α
  | .snapshot state description => h.snapshot state description
  | .undo current => (h.undo? current).elim h Prod.snd
  | .redo current => (h.redo? current).elim h Prod.snd
  | .beginBatch => h.beginBatch
  | .endBatch => h.endBatch
  | .describeBatch description => h.describeBatch description
  | .clear => h.clear

def run (h : History α) (steps : List (Step α)) : History α := steps.foldl follow h

def answers (h : History α) : List (Step α) → List (Option α)
  | [] => []
  | x :: rest => h.answer? x :: (h.follow x).answers rest

/-- Every step back that `k` takes on the way, `h` takes as well. -/
def KeepsUp (h k : History α) : List (Step α) → Prop
  | [] => True
  | x :: rest => (x.isUndo = true → (k.answer? x).isSome = true → (h.answer? x).isSome = true) ∧
    KeepsUp (h.follow x) (k.follow x) rest

instance decidableKeepsUp (h k : History α) :
    (steps : List (Step α)) → Decidable (KeepsUp h k steps)
  | [] => isTrue trivial
  | x :: rest =>
    have := decidableKeepsUp (h.follow x) (k.follow x) rest
    inferInstanceAs (Decidable ((_ → _ → _) ∧ KeepsUp (h.follow x) (k.follow x) rest))

/-- `h` holds the newest entries of `k` and is the same in all else but the limit. -/
structure Trails (h k : History α) : Prop where
  past : h.past <+: k.past
  future : h.future = k.future
  batch : h.batch = k.batch

private theorem prefix_trim (limit : Option Limit) (es : List (Entry α)) :
    trim limit es <+: es := by
  unfold trim
  split
  · split
    · exact List.dropLast_prefix es
    · exact List.prefix_refl es
  · exact List.prefix_refl es

/-- The newest entry stays; the oldest makes room for it. -/
theorem trim_cons (limit : Option Limit) (e : Entry α) (es : List (Entry α)) :
    trim limit (e :: es) = e :: if limit.any (·.steps ≤ es.length) then es.dropLast else es := by
  cases limit with
  | none => rfl
  | some l =>
    simp only [trim, List.length_cons, Option.any_some, decide_eq_true_eq, Nat.lt_succ_iff]
    split
    · next hle =>
      have hes : es ≠ [] := by
        rintro rfl
        exact absurd l.pos (Nat.not_lt.mpr hle)
      exact List.dropLast_cons_of_ne_nil hes
    · rfl

private theorem prefix_describeNewest (description : String) {es ds : List (Entry α)}
    (h : es <+: ds) : describeNewest description es <+: describeNewest description ds := by
  obtain ⟨older, rfl⟩ := h
  cases es with
  | nil => exact List.nil_prefix
  | cons e es => exact List.prefix_append _ older

namespace Trails
variable {h k : History α}

theorem push (ht : Trails h k) (hk : k.limit = none) (e : Entry α) :
    Trails (h.push e) (k.push e) where
  past := by
    have hp : (k.push e).past = e :: k.past := by rw [History.push, hk, trim]
    rw [hp]
    exact (prefix_trim h.limit _).trans (List.cons_prefix_cons.mpr ⟨rfl, ht.past⟩)
  future := rfl
  batch := ht.batch

theorem snapshot (ht : Trails h k) (hk : k.limit = none) (state : α) (d : Option String) :
    Trails (h.snapshot state d) (k.snapshot state d) := by
  unfold History.snapshot
  rw [ht.batch]
  split
  · exact ht.push hk _
  · next b _ =>
    split
    · exact ht
    · have hc : Trails { h with batch := some { b with captured := true } }
          { k with batch := some { b with captured := true } } := ⟨ht.past, ht.future, rfl⟩
      exact hc.push hk _

theorem reopen (ht : Trails h k) : h.reopen.batch = k.reopen.batch := by
  rw [History.reopen, History.reopen, ht.batch]

theorem describeBatch (ht : Trails h k) (d : String) :
    Trails (h.describeBatch d) (k.describeBatch d) := by
  unfold History.describeBatch
  rw [ht.batch]
  split
  · exact ht
  · refine ⟨?_, ht.future, rfl⟩
    dsimp only
    split
    · exact prefix_describeNewest d ht.past
    · exact ht.past

/-- A step back that both can take leads both to the same state. -/
theorem undo (ht : Trails h k) {c : α}
    (hu : (k.answer? (.undo c)).isSome = true → (h.answer? (.undo c)).isSome = true) :
    h.answer? (.undo c) = k.answer? (.undo c) ∧
      Trails (h.follow (.undo c)) (k.follow (.undo c)) := by
  obtain ⟨older, hp⟩ := ht.past
  simp only [answer?, History.follow, undo?] at hu ⊢
  cases hh : h.past with
  | nil =>
    rw [hh] at hu
    cases hk : k.past with
    | nil => exact ⟨rfl, ht⟩
    | cons e past =>
      rw [hk] at hu
      exact absurd (hu rfl) (by simp)
  | cons e past =>
    rw [hh] at hp
    rw [← hp]
    exact ⟨rfl, List.prefix_append past older, congrArg (List.cons _) ht.future, ht.reopen⟩

theorem redo (ht : Trails h k) (c : α) :
    h.answer? (.redo c) = k.answer? (.redo c) ∧
      Trails (h.follow (.redo c)) (k.follow (.redo c)) := by
  simp only [answer?, History.follow, redo?]
  rw [← ht.future]
  cases hf : h.future with
  | nil => exact ⟨rfl, ht⟩
  | cons e future =>
    exact ⟨rfl, List.cons_prefix_cons.mpr ⟨rfl, ht.past⟩, rfl, ht.reopen⟩

theorem follow (ht : Trails h k) (hk : k.limit = none) {x : Step α}
    (hx : x.isUndo = true → (k.answer? x).isSome = true → (h.answer? x).isSome = true) :
    h.answer? x = k.answer? x ∧ Trails (h.follow x) (k.follow x) := by
  cases x with
  | snapshot state d => exact ⟨rfl, ht.snapshot hk state d⟩
  | undo c => exact ht.undo (hx rfl)
  | redo c => exact ht.redo c
  | beginBatch | endBatch => exact ⟨rfl, ht.past, ht.future, rfl⟩
  | describeBatch d => exact ⟨rfl, ht.describeBatch d⟩
  | clear => exact ⟨rfl, List.prefix_refl _, rfl, rfl⟩

end Trails

private theorem limit_snapshot (h : History α) (state : α) (d : Option String) :
    (h.snapshot state d).limit = h.limit := by
  unfold snapshot
  split
  · rfl
  · split <;> rfl

private theorem limit_follow (h : History α) (x : Step α) : (h.follow x).limit = h.limit := by
  cases x with
  | snapshot state d => exact limit_snapshot h state d
  | undo c =>
    simp only [follow, undo?]
    cases h.past <;> rfl
  | redo c =>
    simp only [follow, redo?]
    cases h.future <;> rfl
  | describeBatch d =>
    simp only [follow, describeBatch]
    split <;> rfl
  | beginBatch | endBatch | clear => rfl

theorem Trails.run {h k : History α} (ht : Trails h k) (hk : k.limit = none)
    {steps : List (Step α)} (hs : KeepsUp h k steps) :
    h.answers steps = k.answers steps ∧
      ∀ n, Trails (h.run (steps.take n)) (k.run (steps.take n)) := by
  induction steps generalizing h k with
  | nil => exact ⟨rfl, fun n => by rw [List.take_nil]; exact ht⟩
  | cons x rest ih =>
    obtain ⟨hx, hrest⟩ := hs
    obtain ⟨ha, hf⟩ := ht.follow hk hx
    obtain ⟨has, hfs⟩ := ih hf ((limit_follow k x).trans hk) hrest
    refine ⟨by rw [answers, answers, ha, has], fun n => ?_⟩
    cases n with
    | zero => exact ht
    | succ n => exact hfs n

/-- The future is given up for the new entry, and the past is cut down to the limit. -/
private theorem levels_push {h : History α} {l : Limit} (hl : h.limit = some l)
    (hn : h.past.length ≤ l.steps) (e : Entry α) :
    (h.push e).undoLevels + (h.push e).redoLevels ≤ l.steps := by
  simp only [undoLevels, redoLevels, push, trim, hl, List.length_nil, List.length_cons]
  split
  · rw [List.length_dropLast, List.length_cons]
    omega
  · rw [List.length_cons]
    omega

private theorem length_describeNewest (d : String) (es : List (Entry α)) :
    (describeNewest d es).length = es.length := by
  cases es <;> rfl

/-- No step goes beyond the limit: what goes to the future comes from the past, and back. -/
theorem levels_follow {h : History α} {l : Limit} (hl : h.limit = some l)
    (hn : h.undoLevels + h.redoLevels ≤ l.steps) (x : Step α) :
    (h.follow x).undoLevels + (h.follow x).redoLevels ≤ l.steps := by
  unfold undoLevels redoLevels at hn
  cases x with
  | snapshot state d =>
    have hp : h.past.length ≤ l.steps := by omega
    simp only [follow, snapshot]
    split
    · exact levels_push hl hp _
    · split
      · exact hn
      · exact levels_push hl hp _
  | undo c =>
    simp only [follow, undo?]
    cases hp : h.past with
    | nil => exact hn
    | cons e past =>
      rw [hp, List.length_cons] at hn
      simp only [Option.elim_some, undoLevels, redoLevels, List.length_cons]
      omega
  | redo c =>
    simp only [follow, redo?]
    cases hf : h.future with
    | nil => exact hn
    | cons e future =>
      rw [hf, List.length_cons] at hn
      simp only [Option.elim_some, undoLevels, redoLevels, List.length_cons]
      omega
  | describeBatch d =>
    simp only [follow, describeBatch]
    split
    · exact hn
    · simp only [undoLevels, redoLevels, apply_ite List.length, length_describeNewest, ite_self]
      exact hn
  | beginBatch | endBatch => exact hn
  | clear => exact Nat.zero_le l.steps

theorem levels_run {h : History α} {l : Limit} (hl : h.limit = some l)
    (hn : h.undoLevels + h.redoLevels ≤ l.steps) (steps : List (Step α)) :
    (h.run steps).undoLevels + (h.run steps).redoLevels ≤ l.steps := by
  induction steps generalizing h with
  | nil => exact hn
  | cons x rest ih => exact ih ((limit_follow h x).trans hl) (levels_follow hl hn x)

private theorem limit_bounded {n : Nat} (hn : 1 ≤ n) :
    (bounded n : History α).limit = some ⟨n, hn⟩ :=
  dif_pos hn

/-- A history with a limit never holds more steps than that, back and forth together. Beside a
history without limit, and as long as it can take each step back that the other takes, it gives the
same answers, has the same future and the same batch, and its past is the newest part of the
other. -/
theorem bounded_trails (n : Nat) (hn : 1 ≤ n) (steps : List (Step α)) :
    ((bounded n).run steps).undoLevels + ((bounded n).run steps).redoLevels ≤ n ∧
      (KeepsUp (bounded n) empty steps → (bounded n).answers steps = empty.answers steps ∧
        ∀ i, Trails ((bounded n).run (steps.take i)) (empty.run (steps.take i))) := by
  constructor
  · exact levels_run (limit_bounded hn) (Nat.zero_le n) steps
  · intro hs
    have start : Trails (bounded n) (empty : History α) := ⟨List.prefix_refl _, rfl, rfl⟩
    exact start.run rfl hs

/-- A batch is named after its first edit, the limit is reached twice, and the way leads back and
forth once. -/
def busySteps : List (Step Nat) :=
  [.snapshot 0 none, .beginBatch, .snapshot 1 (some "Add text"), .snapshot 2 none,
   .describeBatch "Two texts", .endBatch, .snapshot 3 none, .undo 4, .redo 3, .snapshot 4 none,
   .undo 5, .undo 4]

theorem bounded_trails_busy :
    1 ≤ 2 ∧ KeepsUp (bounded 2) empty busySteps ∧
      ((bounded 2).run busySteps).undoLevels + ((bounded 2).run busySteps).redoLevels ≤ 2 ∧
      (bounded 2).answers busySteps = empty.answers busySteps ∧
      Trails ((bounded 2).run (busySteps.take 10)) (empty.run (busySteps.take 10)) ∧
      (empty.run busySteps).undoLevels = 2 := by
  have hs : KeepsUp (bounded 2) empty busySteps := by decide
  obtain ⟨hn, ht⟩ := bounded_trails 2 (by decide) busySteps
  obtain ⟨ha, hall⟩ := ht hs
  exact ⟨by decide, hs, hn, ha, hall 10, rfl⟩

end MailComposer.History
