import MailComposer.Proofs.Session.Run

/-!
Ids stay distinct. Every forest that a session holds takes its ids from one it held at the start and
from the ids drawn since, so that no request, in whatever order, gives one id to two components.
-/
namespace MailComposer.Session
open Component (idsIn)
open IdSource

variable {σ : Type} [IdSource σ]

/-- The number of ids that an action draws. -/
def draws (s : Session σ) (a : Action) : Nat :=
  match s.mutation? a with
  | none => 0
  | some m =>
    match s.apply m with
    | .ok _ => m.draws s.components
    | .error _ => 0

def drawsOfRun (s : Session σ) : List Action → Nat
  | [] => 0
  | a :: rest => s.draws a + (s.perform a).drawsOfRun rest

private theorem ids_perform (s : Session σ) (a : Action) :
    (s.perform a).ids = after s.ids (s.draws a) ∧
      ∀ tree ∈ (s.perform a).trees, ∃ old ∈ s.trees,
        (idsIn tree).Subperm (drawn s.ids (s.draws a) ++ idsIn old) := by
  have keep {tree : List Component} (ht : tree ∈ s.trees) (n : Nat) :
      ∃ old ∈ s.trees, (idsIn tree).Subperm (drawn s.ids n ++ idsIn old) :=
    ⟨tree, ht, (List.sublist_append_right ..).subperm⟩
  cases hm : s.mutation? a with
  | none =>
    obtain ⟨hi, ht⟩ := perform_of_no_mutation hm
    simp only [draws, hm]
    exact ⟨hi, fun tree h => keep (ht tree h) 0⟩
  | some m =>
    rw [perform_of_mutation? hm]
    cases ha : s.apply m with
    | error e =>
      simp only [draws, hm, ha, attempt_of_error ha]
      exact ⟨rfl, fun tree h => keep h 0⟩
    | ok r =>
      obtain ⟨created, s'⟩ := r
      obtain ⟨o, ids, happ, rfl, hs⟩ := apply_eq_ok_iff.mp ha
      obtain ⟨hi, hp⟩ := happ.idsIn_subperm
      simp only [draws, hm, ha, attempt_of_ok ha]
      refine ⟨by rw [hs]; exact hi, fun tree h => ?_⟩
      rcases mem_trees_of_apply ha h with rfl | h
      · exact ⟨s.components, List.mem_cons_self, by rw [hs]; exact hp⟩
      · exact keep h _

/-- A run draws its ids in a row, and each forest held at its end has old ids and drawn ones, none
of them more often than it was there or was drawn. -/
theorem ids_run (s : Session σ) (actions : List Action) :
    (s.run actions).ids = after s.ids (s.drawsOfRun actions) ∧
      ∀ tree ∈ (s.run actions).trees, ∃ old ∈ s.trees,
        (idsIn tree).Subperm (drawn s.ids (s.drawsOfRun actions) ++ idsIn old) := by
  induction actions generalizing s with
  | nil =>
    exact ⟨rfl, fun tree h => ⟨tree, h, .refl _⟩⟩
  | cons a rest ih =>
    obtain ⟨hi, ht⟩ := ids_perform s a
    obtain ⟨hr, hts⟩ := ih (s.perform a)
    rw [hi] at hr hts
    simp only [drawsOfRun, after_add, drawn_add]
    refine ⟨hr, fun tree h => ?_⟩
    obtain ⟨mid, hmid, hp⟩ := hts tree h
    obtain ⟨old, hold, hq⟩ := ht mid hmid
    refine ⟨old, hold, hp.trans (((List.Subperm.refl _).append hq).trans ?_)⟩
    rw [← List.append_assoc]
    exact (List.perm_append_comm.append_right _).subperm

theorem nodup_trees_run {t : Template} {ids : σ} {limit : Nat} {actions : List Action}
    (h : (drawn ids ((opened t ids limit).drawsOfRun actions) ++ idsIn t.components).Nodup)
    {tree : List Component} (hm : tree ∈ ((opened t ids limit).run actions).trees) :
    (idsIn tree).Nodup := by
  obtain ⟨-, ht⟩ := ids_run (opened t ids limit) actions
  obtain ⟨old, hold, hp⟩ := ht tree hm
  rw [trees_opened, List.mem_singleton] at hold
  subst hold
  obtain ⟨l, hl, hs⟩ := hp
  exact hl.nodup_iff.mp (h.sublist hs)

/-- Whatever is asked of a session, no id stands twice in its forest, nor in one that its history
holds, if the ids drawn on the way are distinct and new and those of the template are distinct. -/
theorem nodup_ids_run (t : Template) (ids : σ) (limit : Nat) (actions : List Action)
    (h : (drawn ids ((opened t ids limit).drawsOfRun actions) ++ idsIn t.components).Nodup) :
    (idsIn ((opened t ids limit).run actions).components).Nodup ∧
      (∀ e ∈ ((opened t ids limit).run actions).history.past, (idsIn e.state).Nodup) ∧
      ∀ e ∈ ((opened t ids limit).run actions).history.future, (idsIn e.state).Nodup := by
  refine ⟨nodup_trees_run h List.mem_cons_self, fun e he => ?_, fun e he => ?_⟩
  · have hs : e.state ∈ ((opened t ids limit).run actions).history.states :=
      List.mem_map_of_mem (List.mem_append_left _ he)
    exact nodup_trees_run h (List.mem_cons_of_mem _ hs)
  · have hs : e.state ∈ ((opened t ids limit).run actions).history.states :=
      List.mem_map_of_mem (List.mem_append_right _ he)
    exact nodup_trees_run h (List.mem_cons_of_mem _ hs)

def nestedTemplate : Template where
  components :=
    [.container "a" .empty [.leaf "b" .empty (.spacer "8px")], .leaf "c" .empty .divider]

def nestedEdits : List Action :=
  [.beginBatch "Two rows", .duplicate (.named "a"), .drop "column2" (.inside "s-1"), .endBatch,
   .relocate "b" (.inColumn "s-3" 1), .undo, .redo, .duplicate (.position 1 none none),
   .select "s-4", .delete "a", .undo, .toggleSpacing "s-4" ⟨.padding, .advanced⟩]

theorem nodup_ids_run_nested :
    let start := opened nestedTemplate (SerialIds.ofSeed "s") 2
    (drawn start.ids (start.drawsOfRun nestedEdits) ++ idsIn nestedTemplate.components).Nodup ∧
      start.drawsOfRun nestedEdits = 7 ∧
      (idsIn (start.run nestedEdits).components).Nodup ∧
      (∀ e ∈ (start.run nestedEdits).history.past, (idsIn e.state).Nodup) ∧
      ∀ e ∈ (start.run nestedEdits).history.future, (idsIn e.state).Nodup :=
  ⟨by decide, by decide,
    nodup_ids_run nestedTemplate (SerialIds.ofSeed "s") 2 nestedEdits (by decide)⟩

/-- For a numbered series it is enough that no id of the template is one of its ids, and that it is
not drawn from more often than its count can tell. -/
theorem nodup_serial_run {t : Template} {ids : SerialIds} (ht : (idsIn t.components).Nodup)
    (hs : ∀ n, SerialIds.numbered ids.seed n ∉ idsIn t.components) {limit : Nat}
    {actions : List Action}
    (hw : ids.count.toNat + (opened t ids limit).drawsOfRun actions < UInt32.size)
    {tree : List Component} (hm : tree ∈ ((opened t ids limit).run actions).trees) :
    (idsIn tree).Nodup :=
  nodup_trees_run (SerialIds.nodup_drawn_append ht hs _ hw) hm

end MailComposer.Session
