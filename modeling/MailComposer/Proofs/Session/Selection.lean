import MailComposer.Proofs.Session.Run
import MailComposer.Proofs.Tree.Removal

/-!
The selected component is a copy. No request leaves it behind the forest: it is read again whenever
the forest changes, and is dropped once its id is gone.
-/
namespace MailComposer.Session
open Component (idsIn subtrees subtreesIn)

variable {σ : Type}

/-- The selected component is the one that a search by its id finds. -/
def InSync (s : Session σ) : Prop := ∀ c, s.selected = some c → s.find? c.id = some c

/-- Requests to select something else, or nothing. -/
def Action.selects : Action → Bool
  | .select _ | .clearSelection => true
  | _ => false

private theorem inSync_of_none {s : Session σ} (h : s.selected = none) : s.InSync := by
  intro c hc
  rw [h] at hc
  cases hc

private theorem InSync.selected_eq {s : Session σ} (h : s.InSync) :
    s.selected = s.selected.bind fun c => s.find? c.id := by
  cases hc : s.selected with
  | none => rfl
  | some c => exact (h c hc).symm

/-- What a search gives is found again by its own id. -/
theorem inSync_of_find? {s : Session σ} {i : String} (h : s.selected = s.find? i) : s.InSync := by
  intro c hc
  have hf : s.find? i = some c := h.symm.trans hc
  rw [(Component.findIn?_eq_some hf).2, hf]

section
variable [IdSource σ]

private theorem selected_attempt {s : Session σ} (h : s.InSync) (m : Mutation) :
    (s.attempt m).2.selected = s.selected.bind fun c => (s.attempt m).2.find? c.id := by
  cases ha : s.apply m with
  | error e =>
    rw [attempt_of_error ha]
    exact h.selected_eq
  | ok r =>
    obtain ⟨o, ids, -, -, hs⟩ := apply_eq_ok_iff.mp ha
    rw [attempt_of_ok ha, hs]
    rfl

/-- A request that selects nothing itself has the selected component read from the forest that it
leaves. -/
theorem selected_perform {s : Session σ} (h : s.InSync) {a : Action} (ha : a.selects = false) :
    (s.perform a).selected = s.selected.bind fun c => (s.perform a).find? c.id := by
  cases hm : s.mutation? a with
  | some m =>
    rw [perform_of_mutation? hm]
    exact selected_attempt h m
  | none =>
    cases a with
    | undo =>
      simp only [perform, undo]
      split
      · rfl
      · exact h.selected_eq
    | redo =>
      simp only [perform, redo]
      split
      · rfl
      · exact h.selected_eq
    | toggleSpacing i k =>
      rw [perform_toggleSpacing hm]
      exact h.selected_eq
    | select | clearSelection => cases ha
    | beginBatch | endBatch | setName | setCanvas | save | exportHtml => exact h.selected_eq
    | _ => cases hm

private theorem inSync_perform {s : Session σ} (h : s.InSync) (a : Action) :
    (s.perform a).InSync := by
  cases ha : a.selects with
  | false =>
    have hs := selected_perform h ha
    cases hc : s.selected with
    | none =>
      rw [hc] at hs
      exact inSync_of_none hs
    | some c =>
      rw [hc] at hs
      exact inSync_of_find? hs
  | true =>
    cases a with
    | select i =>
      simp only [perform, select]
      split
      · next c hc => exact inSync_of_find? (i := i) hc.symm
      · exact h
    | clearSelection => exact inSync_of_none rfl
    | _ => cases ha

/-- What a host does with a session: it makes requests, and may hand it a history or put up
receivers for documents at any time. -/
inductive Call where
  | request (a : Action)
  | withHistory (h : History (List Component))
  | listen

def call (s : Session σ) : Call → Session σ
  | .request a => s.perform a
  | .withHistory h => s.withHistory h
  | .listen => s.listen

def follow (s : Session σ) (calls : List Call) : Session σ := calls.foldl call s

private theorem inSync_call {s : Session σ} (h : s.InSync) (c : Call) : (s.call c).InSync := by
  cases c with
  | request a => exact inSync_perform h a
  | withHistory | listen => exact h

theorem inSync_follow {s : Session σ} (h : s.InSync) (calls : List Call) :
    (s.follow calls).InSync := by
  induction calls generalizing s with
  | nil => exact h
  | cons c rest ih => exact ih (inSync_call h c)

private theorem components_delete (s : Session σ) (i : String) :
    (s.delete i).components = Tree.delete s.components i := by
  cases hc : Component.containsIn i s.components with
  | true =>
    have ha := apply_eq_ok_iff (s := s).mpr ⟨_, _, .delete hc, rfl, rfl⟩
    rw [delete, attempt_of_ok ha]
    rfl
  | false =>
    have hi : i ∉ idsIn s.components := by
      intro hi
      rw [Component.containsIn_iff.mpr hi] at hc
      cases hc
    rw [Tree.delete, Component.pruneList_of_not_mem hi, delete]
    cases ha : s.apply (.delete i) with
    | error e => rw [attempt_of_error ha]
    | ok r =>
      obtain ⟨o, ids, hd, -⟩ := apply_eq_ok_iff.mp ha
      cases hd with
      | delete h => cases hc.symm.trans h

omit [IdSource σ] in
private theorem selected_eq_none_iff {s : Session σ} {i : String} (h : s.selected = s.find? i) :
    s.selected = none ↔ i ∉ idsIn s.components := by
  rw [h]
  exact Component.findIn?_eq_none

/-- However a host has used a session, the selected component is the one that a search by its id
finds. The next request has it read again, so that it is dropped just when its id is gone: it goes
with any component above it, if no other has its id. -/
theorem selection_of_follow (t : Template) (ids : σ) (calls : List Call) :
    let s := (ofTemplate t ids).follow calls
    s.InSync ∧ ∀ c, s.selected = some c →
      (∀ a : Action, a.selects = false →
        (s.perform a).selected = (s.perform a).find? c.id ∧
          ((s.perform a).selected = none ↔ c.id ∉ idsIn (s.perform a).components)) ∧
      (s.delete c.id).selected = none ∧
      ((idsIn s.components).count c.id = 1 → ∀ above ∈ subtreesIn s.components,
        c ∈ subtrees above → (s.delete above.id).selected = none) := by
  intro s
  have hs : s.InSync := inSync_follow (inSync_of_none rfl) calls
  refine ⟨hs, fun c hc => ?_⟩
  have hread : ∀ a : Action, a.selects = false →
      (s.perform a).selected = (s.perform a).find? c.id := by
    intro a ha
    rw [selected_perform hs ha, hc, Option.bind_some]
  have hgone : ∀ i, c.id ∉ idsIn (Tree.delete s.components i) →
      (s.delete i).selected = none := by
    intro i hi
    refine (selected_eq_none_iff (hread (.delete i) rfl)).mpr ?_
    rwa [← components_delete] at hi
  refine ⟨fun a ha => ⟨hread a ha, selected_eq_none_iff (hread a ha)⟩, ?_, ?_⟩
  · exact hgone c.id (Component.not_mem_idsIn_pruneList c.id s.components)
  · intro h1 above ha hca
    exact hgone above.id (Component.not_mem_pruneList_of_count ha rfl
      (Component.mem_ids.mpr ⟨c, hca, rfl⟩) h1)

/-- Two components share an id, and the history knows a forest from elsewhere. -/
def boxTemplate : Template where
  components :=
    [.container "box" .empty [.container "in" .empty [.leaf "a" .empty .divider]],
     .leaf "d" .empty .divider, .leaf "d" .empty (.spacer "8px")]

def boxCalls : List Call :=
  [.withHistory { past := [⟨[], some "Clear"⟩] }, .request (.select "in"), .listen,
   .request (.beginBatch "Tidy up"), .request (.move (.named "d") .down),
   .request (.applyStyles "a" (StyleMap.empty.set .color "#111111")), .request .endBatch,
   .request .undo, .request .redo]

theorem selection_of_follow_box :
    let s := (ofTemplate boxTemplate (SerialIds.ofSeed "s")).follow boxCalls
    let inner := Component.container "in" .empty
      [.leaf "a" (StyleMap.empty.set .color "#111111") .divider]
    s.InSync ∧ s.selected = some inner ∧ (s.perform .undo).selected ≠ none ∧
      (s.perform .undo).selected = (s.perform .undo).find? "in" ∧
      ((s.perform .undo).perform .undo).selected = none ∧ (s.delete "box").selected = none := by
  intro s inner
  have hc : s.selected = some inner := by decide
  have hbox : Component.container "box" .empty [inner] ∈ subtreesIn s.components := by decide
  obtain ⟨hs, h⟩ := selection_of_follow boxTemplate (SerialIds.ofSeed "s") boxCalls
  obtain ⟨hread, -, habove⟩ := h inner hc
  exact ⟨hs, hc, by decide, (hread .undo rfl).1, by decide, habove (by decide) _ hbox (by decide)⟩

end

end MailComposer.Session
