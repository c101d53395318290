import MailComposer.Session
import MailComposer.Proofs.Mutation.Applied
import MailComposer.Proofs.Tree.Lasting

/-!
Runs of a session: requests of every kind, one after the other. A request either stands for one
mutation or makes no new forest: it goes back to one that the history holds.
-/
namespace MailComposer

namespace History
variable {α : Type}

/-- All states that can be come back to. -/
def states (h : History α) : List α := (h.past ++ h.future).map (·.state)

private theorem trim_subset (limit : Option Limit) (es : List (Entry α)) : trim limit es ⊆ es := by
  unfold trim
  split
  · split
    · exact List.dropLast_subset es
    · exact List.Subset.refl es
  · exact List.Subset.refl es

private theorem mem_states_push {h : History α} {e : Entry α} {a : α} (ha : a ∈ (h.push e).states) :
    a = e.state ∨ a ∈ h.states := by
  simp only [states, push, List.append_nil] at ha
  obtain ⟨e', he, rfl⟩ := List.mem_map.mp ha
  rcases List.mem_cons.mp (trim_subset _ _ he) with rfl | he
  · exact .inl rfl
  · exact .inr (List.mem_map_of_mem (List.mem_append_left _ he))

private theorem mem_states_snapshot {h : History α} {state a : α} {d : Option String}
    (ha : a ∈ (h.snapshot state d).states) : a = state ∨ a ∈ h.states := by
  unfold snapshot at ha
  split at ha
  · exact mem_states_push ha
  · split at ha
    · exact .inr ha
    · exact mem_states_push ha

private theorem mem_states_undo? {h h' : History α} {current state a : α}
    (hu : h.undo? current = some (state, h')) (ha : a ∈ state :: h'.states) :
    a = current ∨ a ∈ h.states := by
  unfold undo? at hu
  split at hu
  · simp at hu
  · next e past hp =>
    obtain ⟨rfl, rfl⟩ := Prod.mk.inj (Option.some.inj hu)
    simp only [states, hp, List.map_append, List.map_cons, List.mem_cons, List.mem_append] at ha ⊢
    tauto

private theorem mem_states_redo? {h h' : History α} {current state a : α}
    (hr : h.redo? current = some (state, h')) (ha : a ∈ state :: h'.states) :
    a = current ∨ a ∈ h.states := by
  unfold redo? at hr
  split at hr
  · simp at hr
  · next e future hf =>
    obtain ⟨rfl, rfl⟩ := Prod.mk.inj (Option.some.inj hr)
    simp only [states, hf, List.map_append, List.map_cons, List.mem_cons, List.mem_append] at ha ⊢
    tauto

end History

/-- No mutation takes a lasting property from a forest, unless the patch of a component does. -/
theorem Component.Lasting.applied {P : List Component → Prop} (hP : Lasting P) {σ : Type}
    [IdSource σ] {tree : List Component} {ids ids' : σ} {m : Mutation} {o : Mutation.Outcome}
    (h : Mutation.Applied tree ids m o ids') (ht : P tree)
    (hm : ∀ i p c, m = .update i p → findIn? i tree = some c → P [c] → P [p.apply c]) :
    P o.components := by
  cases h with
  | add _ _ => exact hP.add (hP.built _ _) ht _
  | update _ => exact hP.update ht fun c => hm _ _ c rfl
  | delete _ => exact hP.pruned ht
  | move _ => exact hP.move ht _
  | duplicate _ => exact hP.duplicate ht ids
  | relocate _ _ _ => exact hP.relocate ht _

namespace Session
open Mutation (Applied)

/-- What can be asked of a session. -/
inductive Action where
  | apply (m : Mutation)
  | add (type : String) (index : Option UInt64) (parent : Option String) (column : Option UInt64)
  | drop (type : String) (target : Target)
  | update (id : String) (patch : Patch)
  | applyStyles (id : String) (styles : StyleMap)
  | delete (id : String)
  | move (target : Ref) (direction : Direction)
  | duplicate (target : Ref)
  | relocate (id : String) (target : Target)
  | toggleSpacing (id : String) (control : Spacing.Control)
  | select (id : String)
  | clearSelection
  | undo
  | redo
  | beginBatch (description : String)
  | endBatch
  | setName (name : String)
  | setCanvas (canvas : Canvas)
  | save
  | exportHtml

variable {σ : Type} [IdSource σ]

def perform (s : Session σ) : Action → Session σ
  | .apply m => (s.attempt m).2
  | .add type index parent column => (s.add type index parent column).2
  | .drop type t => (s.drop type t).2
  | .update i p => s.update i p
  | .applyStyles i styles => s.applyStyles i styles
  | .delete i => s.delete i
  | .move r d => s.move r d
  | .duplicate r => (s.duplicate r).2
  | .relocate i t => s.relocate i t
  | .toggleSpacing i k => (s.toggleSpacing i k).2
  | .select i => (s.select i).2
  | .clearSelection => s.clearSelection
  | .undo => s.undo.2
  | .redo => s.redo.2
  | .beginBatch description => s.beginBatch description
  | .endBatch => s.endBatch
  | .setName name => s.setName name
  | .setCanvas c => s.setCanvas c
  | .save => s.save.2
  | .exportHtml => s.exportHtml.2

def run (s : Session σ) (actions : List Action) : Session σ := actions.foldl perform s

/-- The mutation that an action stands for. -/
def mutation? (s : Session σ) : Action → Option Mutation
  | .apply m => some m
  | .add type index parent column => some (.add type { parent, column, index })
  | .drop type t => some (.add type t)
  | .update i p => some (.update i p)
  | .applyStyles i styles => some (.update i (.ofStyles styles))
  | .delete i => some (.delete i)
  | .move r d => some (.move r d)
  | .duplicate r => some (.duplicate r)
  | .relocate i t => some (.relocate i t)
  | .toggleSpacing i k =>
    (s.find? i).bind fun c => (k.toggle c).2.map fun patch => .update i (.ofStyles patch)
  | _ => none

/-- The current forest and those of the history. -/
def trees (s : Session σ) : List (List Component) := s.components :: s.history.states

/-- A session on a template that keeps at most `limit` steps back, or all where it is 0. -/
def opened (t : Template) (ids : σ) (limit : Nat) : Session σ :=
  { ofTemplate t ids with history := .bounded limit }

omit [IdSource σ] in
theorem trees_opened (t : Template) (ids : σ) (limit : Nat) :
    (opened t ids limit).trees = [t.components] := rfl

omit [IdSource σ] in
theorem forall_mem_trees {q : List Component → Prop} {s : Session σ} :
    (∀ tree ∈ s.trees, q tree) ↔ q s.components ∧ (∀ e ∈ s.history.past, q e.state) ∧
      ∀ e ∈ s.history.future, q e.state := by
  rw [trees, List.forall_mem_cons, History.states, List.forall_mem_map, List.forall_mem_append]

theorem apply_eq_ok_iff {s s' : Session σ} {m : Mutation} {r : Option String} :
    s.apply m = .ok (r, s') ↔ ∃ o ids, Applied s.components s.ids m o ids ∧ r = o.created ∧
      s' = { s with
        ids
        history := if m.isUndoable then s.history.snapshot s.components (some m.describe)
          else s.history }.withComponents o.components := by
  rw [apply, Mutation.bind_eq_ok]
  constructor
  · rintro ⟨⟨o, ids⟩, ha, h⟩
    cases h
    exact ⟨o, ids, Mutation.apply_eq_ok_iff.mp ha, rfl, rfl⟩
  · rintro ⟨o, ids, ha, rfl, rfl⟩
    exact ⟨(o, ids), Mutation.apply_eq_ok_iff.mpr ha, rfl⟩

theorem attempt_of_ok {s : Session σ} {m : Mutation} {r : Option String × Session σ}
    (h : s.apply m = .ok r) : s.attempt m = r := by rw [attempt, h]

theorem attempt_of_error {s : Session σ} {m : Mutation} {e : MutationError}
    (h : s.apply m = .error e) : s.attempt m = (none, s) := by rw [attempt, h]

theorem perform_of_mutation? {s : Session σ} {a : Action} {m : Mutation}
    (h : s.mutation? a = some m) : s.perform a = (s.attempt m).2 := by
  cases a with
  | toggleSpacing i k =>
    simp only [mutation?, Option.bind_eq_some_iff, Option.map_eq_some_iff] at h
    obtain ⟨c, hc, patch, hp, rfl⟩ := h
    simp only [perform, toggleSpacing, hc]
    split
    · next hk => rw [hk] at hp; cases hp; rfl
    · next hk => rw [hk] at hp; cases hp
  | _ => cases h <;> rfl

/-- A mutation that goes through makes one new forest. -/
theorem mem_trees_of_apply {s s' : Session σ} {m : Mutation} {r : Option String}
    (h : s.apply m = .ok (r, s')) {tree : List Component} (ht : tree ∈ s'.trees) :
    tree = s'.components ∨ tree ∈ s.trees := by
  obtain ⟨o, ids, -, -, rfl⟩ := apply_eq_ok_iff.mp h
  rcases List.mem_cons.mp ht with rfl | ht
  · exact .inl rfl
  · refine .inr (List.mem_cons.mpr ?_)
    simp only [withComponents] at ht
    split at ht
    · exact History.mem_states_snapshot ht
    · exact .inr ht

/-- A control that writes nothing leaves the session as it is. -/
theorem perform_toggleSpacing {s : Session σ} {i : String} {k : Spacing.Control}
    (h : s.mutation? (.toggleSpacing i k) = none) : s.perform (.toggleSpacing i k) = s := by
  simp only [perform, toggleSpacing]
  split
  · rfl
  · next c hc =>
    simp only [mutation?, hc, Option.bind_some, Option.map_eq_none_iff] at h
    split
    · next hk => rw [hk] at h; cases h
    · rfl

/-- An action that is no mutation draws no id and makes no new forest. -/
theorem perform_of_no_mutation {s : Session σ} {a : Action} (h : s.mutation? a = none) :
    (s.perform a).ids = s.ids ∧ ∀ tree ∈ (s.perform a).trees, tree ∈ s.trees := by
  cases a with
  | toggleSpacing i k =>
    rw [perform_toggleSpacing h]
    exact ⟨rfl, fun _ ht => ht⟩
  | select i =>
    simp only [perform, select]
    split
    · exact ⟨rfl, fun _ ht => ht⟩
    · exact ⟨rfl, fun _ ht => ht⟩
  | undo =>
    simp only [perform, undo]
    split
    · next hu =>
      exact ⟨rfl, fun tree ht => List.mem_cons.mpr (History.mem_states_undo? hu ht)⟩
    · exact ⟨rfl, fun _ ht => ht⟩
  | redo =>
    simp only [perform, redo]
    split
    · next hr =>
      exact ⟨rfl, fun tree ht => List.mem_cons.mpr (History.mem_states_redo? hr ht)⟩
    · exact ⟨rfl, fun _ ht => ht⟩
  | clearSelection | beginBatch | endBatch | setName | setCanvas | save | exportHtml =>
    exact ⟨rfl, fun _ ht => ht⟩
  | _ => cases h

/-- What a mutation leaves in the new forest, an action leaves in all forests that had it. -/
theorem trees_perform {P : List Component → Prop} {s : Session σ} {a : Action}
    (hm : ∀ {m o ids}, s.mutation? a = some m → Applied s.components s.ids m o ids →
      P s.components → P o.components)
    (hs : ∀ tree ∈ s.trees, P tree) : ∀ tree ∈ (s.perform a).trees, P tree := by
  cases ha : s.mutation? a with
  | none => exact fun tree ht => hs tree ((perform_of_no_mutation ha).2 tree ht)
  | some m =>
    rw [perform_of_mutation? ha]
    cases happ : s.apply m with
    | error e =>
      rw [attempt_of_error happ]
      exact hs
    | ok r =>
      rw [attempt_of_ok happ]
      intro tree ht
      rcases mem_trees_of_apply happ ht with rfl | ht
      · obtain ⟨o, ids, hd, -, hs'⟩ := apply_eq_ok_iff.mp happ
        rw [hs']
        exact hm ha hd (hs s.components List.mem_cons_self)
      · exact hs tree ht

end Session

end MailComposer
