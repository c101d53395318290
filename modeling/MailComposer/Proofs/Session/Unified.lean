import MailComposer.Proofs.Measure.Settled
import MailComposer.Proofs.Session.Run
import MailComposer.Proofs.Tree.Patched

/-!
One value for the four sides of a padding or a margin. Main statement: whether the control goes back
to one value or a value is entered for all sides, one patch writes that value to the four sides of
one component and nothing else, and the control shows it when it is opened again.
-/
namespace MailComposer

namespace Spacing

private theorem spelled_spacing : UnitPolicy.spacing.Spelled :=
  UnitPolicy.spelled_of_mem List.mem_cons_self

theorem normalize_normalize (value : String) : normalize (normalize value) = normalize value :=
  Measure.text_ofText_text spelled_spacing value

private theorem normalize_ne_empty (value : String) : normalize value ≠ "" := by
  obtain ⟨n, unit, tidy, -, spelling⟩ := Measure.settled_text spelled_spacing value
  intro h
  have spelling : (normalize value).toList = n.spelling ++ unit.toList := spelling
  rw [h] at spelling
  have nothing := List.append_eq_nil_iff.mp (List.append_eq_nil_iff.mp spelling.symm).1
  exact tidy.whole_ne (List.append_eq_nil_iff.mp nothing.1).2

/-- Sides that agree on a normal value show it. -/
theorem unifiedValue?_replicate {value : String} (h : normalize value = value) (n : Nat) :
    unifiedValue? (List.replicate (n + 1) value) = some value := by
  rw [unifiedValue?, List.map_replicate, h]
  by_cases hv : value = nothing
  · rw [List.filter_replicate_of_neg (by simpa using hv), hv]
  · rw [List.filter_replicate_of_pos (by simpa using hv), List.replicate_succ]
    exact if_pos (List.all_eq_true.mpr fun v hm => decide_eq_true (List.eq_of_mem_replicate hm))

/-- The names of the styles for the four sides. -/
def keys (g : Group) : List String := sides.map fun s => (property g s).key

private theorem key_mem_keys (g : Group) (s : Side) : (property g s).key ∈ keys g :=
  List.mem_map.mpr ⟨s, by cases s <;> decide, rfl⟩

private theorem value?_unifiedPatch (g : Group) (value key : String) :
    (unifiedPatch g value).value? key = if key ∈ keys g then some (normalize value) else none := by
  have set (entries : List Side) (s : StyleMap) :
      ((entries.map fun side => (property g side, normalize value)).foldl
        (fun s e => s.set e.1 e.2) s).value? key =
      if key ∈ entries.map fun side => (property g side).key then some (normalize value)
      else s.value? key := by
    induction entries generalizing s with
    | nil => rfl
    | cons side entries ih =>
      rw [List.map_cons, List.foldl_cons, ih, StyleMap.value?_set, List.map_cons]
      simp only [List.mem_cons]
      split <;> rename_i h
      · rw [if_pos (.inr h)]
      · simp only [h, or_false]
  rw [unifiedPatch, StyleMap.ofList, set, StyleMap.value?_empty]
  rfl

/-- A component before and after one value is written to all sides. -/
structure Unified (g : Group) (value : String) (c d : Component) : Prop where
  id : d.id = c.id
  kind : d.kind = c.kind
  lists : d.lists = c.lists
  data : ∀ f, d.datum? f = c.datum? f
  styles : ∀ key, d.styles.value? key = if key ∈ keys g then some value else c.styles.value? key

private theorem unified_apply (g : Group) (value : String) (c : Component) :
    Unified g (normalize value) c ((Patch.ofStyles (unifiedPatch g value)).apply c) := by
  have patched := patched_apply (.ofStyles (unifiedPatch g value)) c
  refine ⟨patched.id, patched.kind, ?_, fun f => ?_, fun key => ?_⟩
  · have room : (Patch.ofStyles (unifiedPatch g value)).room c = 0 := by
      unfold Patch.room
      split
      · next widths => cases widths
      · rfl
    rw [patched.lists, room, List.replicate_zero, List.append_nil]
  · have none : (Patch.ofStyles (unifiedPatch g value)).datum? f = none := by cases f <;> rfl
    rw [patched.data, none]
    exact Option.map_id_apply ..
  · rw [patched.styles]
    change ((unifiedPatch g value).value? key).or _ = _
    rw [value?_unifiedPatch]
    split <;> rfl

namespace Unified
variable {g : Group} {value : String} {c d : Component}

theorem readSide (h : Unified g value c d) (hv : value ≠ "") (s : Side) :
    Spacing.readSide d g s = value := by
  have own : d.styles.get? (property g s) = some value := by
    have styles := h.styles (property g s).key
    rwa [StyleMap.value?, Property.ofKey?_key, if_pos (key_mem_keys g s)] at styles
  have effective : d.effective (property g s) = value := by
    rw [Component.effective, StyleMap.nonEmpty?, own, Option.filter_some,
      if_pos (decide_eq_true hv)]
  rw [Spacing.readSide, effective]
  exact if_neg hv

theorem read (h : Unified g value c d) (hv : value ≠ "") :
    Spacing.read d g = List.replicate 4 value :=
  List.eq_replicate_of_mem fun v hm => by
    obtain ⟨s, -, rfl⟩ := List.mem_map.mp hm
    exact h.readSide hv s

end Unified

end Spacing

namespace Session
open Component (idsIn findIn? Replaced)
open Spacing (Control normalize readSide)

variable {σ : Type} [IdSource σ]

/-- A session before and after one value is written to all sides of the component with an id. In the
forest only this component is another one. Beside the forest only the copy of the selected component
is, so that there is nothing more to undo, and nothing less to redo. -/
structure UnifiedAt (i : String) (k : Control) (value : String) (s s' : Session σ) : Prop where
  session : s' = s.withComponents s'.components
  history : s'.history = s.history
  component : ∃ c d left right, s.find? i = some c ∧ s'.find? i = some d ∧
    Replaced (left ++ c :: right) (left ++ d :: right) s.components s'.components ∧
    Spacing.Unified k.group value c d ∧ Spacing.read d k.group = List.replicate 4 value ∧
    Control.ofComponent d k.group = ⟨k.group, .unified⟩ ∧ k.display? d = some value

private theorem update_of_mem {s : Session σ} {i : String} (h : i ∈ idsIn s.components)
    (p : Patch) : s.update i p = s.withComponents (Tree.update s.components i p) := by
  have applied : s.apply (.update i p) =
      .ok (none, s.withComponents (Tree.update s.components i p)) :=
    apply_eq_ok_iff.mpr ⟨_, s.ids, .update (Component.containsIn_iff.mpr h), rfl, rfl⟩
  rw [update, attempt_of_ok applied]

private theorem update_of_not_mem {s : Session σ} {i : String} (h : i ∉ idsIn s.components)
    (p : Patch) : s.update i p = s := by
  have refused : Mutation.validate s.components (.update i p) = .error (.nodeNotFound i) :=
    if_neg (mt Component.containsIn_iff.mp h)
  have refused : s.apply (.update i p) = .error (.nodeNotFound i) := by
    rw [apply, Mutation.apply, refused]
    rfl
  rw [update, attempt_of_error refused]

private theorem unifiedAt_applyStyles {s : Session σ} {i : String} (h : i ∈ idsIn s.components)
    (k : Control) (value : String) :
    UnifiedAt i k (normalize value) s (s.applyStyles i (k.setAll value)) := by
  have written : s.applyStyles i (k.setAll value) =
      s.withComponents (Tree.update s.components i (.ofStyles (k.setAll value))) :=
    update_of_mem h _
  rw [written]
  refine ⟨rfl, rfl, ?_⟩
  cases hc : findIn? i s.components with
  | none => exact absurd h (Component.findIn?_eq_none.mp hc)
  | some c =>
    obtain ⟨place, hput, hmodify⟩ := Component.modifyIn?_place hc
    have unified := Spacing.unified_apply k.group value c
    generalize hp : Patch.ofStyles (k.setAll value) = p
    rw [show Patch.ofStyles (Spacing.unifiedPatch k.group value) = p from hp] at unified
    have hupdate : Tree.update s.components i p = place.put (p.apply c) := by
      rw [Tree.update, Component.modifyIn, hmodify, Option.getD_some]
    have found : findIn? i (place.put (p.apply c)) = some (p.apply c) :=
      Component.findIn?_modifyIn? (hmodify p.apply) hc
        (unified.id.trans (Component.findIn?_eq_some hc).2)
    have sides := unified.read (Spacing.normalize_ne_empty value)
    have shown : k.display? (p.apply c) = some (normalize value) := by
      rw [Control.display?, sides]
      exact Spacing.unifiedValue?_replicate (Spacing.normalize_normalize value) 3
    have replaced := place.replaced_put c (p.apply c)
    rw [hput] at replaced
    rw [hupdate]
    refine ⟨c, p.apply c, place.left, place.right, hc, found, replaced, unified, sides, ?_, shown⟩
    rw [Control.ofComponent, show Spacing.unifiedValue? _ = _ from shown]
    rfl

/-- A control that goes back to one value writes that of the top side to all sides, and a value that
is entered for all sides is written in the same way. Where there is no such component, neither the
control nor the session changes. -/
theorem toggleSpacing_unifies (s : Session σ) (i : String) :
    (i ∈ idsIn s.components →
      (∀ (k : Control) (value : String),
        UnifiedAt i k (normalize value) s (s.applyStyles i (k.setAll value))) ∧
      ∀ k : Control, k.mode = .advanced → ∃ c s', s.find? i = some c ∧
        s' = s.applyStyles i (k.setAll (readSide c k.group .top)) ∧
        s.toggleSpacing i k = (⟨k.group, .unified⟩, s') ∧
        UnifiedAt i k (normalize (readSide c k.group .top)) s s') ∧
    (i ∉ idsIn s.components → ∀ k : Control, s.toggleSpacing i k = (k, s) ∧
      ∀ value, s.applyStyles i (k.setAll value) = s) := by
  refine ⟨fun h => ⟨unifiedAt_applyStyles h, fun k hk => ?_⟩, fun h k => ⟨?_, fun value => ?_⟩⟩
  · cases hc : s.find? i with
    | none => exact absurd h (Component.findIn?_eq_none.mp hc)
    | some c =>
      refine ⟨c, s.applyStyles i (k.setAll (readSide c k.group .top)), rfl, rfl, ?_,
        unifiedAt_applyStyles h k _⟩
      simp only [toggleSpacing, hc, Control.toggle, hk, Control.setAll]
  · rw [toggleSpacing, show s.find? i = none from Component.findIn?_eq_none.mpr h]
  · exact update_of_not_mem h _

/-- The sides of a box, of which the bottom has a blank value, differ at first. -/
theorem toggleSpacing_unifies_box :
    let box : Component := .container "box"
      ((StyleMap.empty.set .paddingTop " 7.50").set .paddingBottom " ") []
    let s : Session SerialIds := { new (.ofSeed "s") with components := [box] }
    let k : Control := .ofComponent box .padding
    "box" ∈ idsIn s.components ∧ k = ⟨.padding, .advanced⟩ ∧
      (s.toggleSpacing "box" k).1 = ⟨.padding, .unified⟩ ∧
      UnifiedAt "box" k "7.5px" s (s.toggleSpacing "box" k).2 := by
  intro box s k
  have h : "box" ∈ idsIn s.components := List.mem_singleton_self _
  have hk : k = ⟨.padding, .advanced⟩ := by decide +kernel
  obtain ⟨c, s', hc, -, toggled, unified⟩ := ((toggleSpacing_unifies s "box").1 h).2 k (by rw [hk])
  obtain rfl : box = c := Option.some.inj hc
  have top : normalize (readSide box k.group .top) = "7.5px" := by decide +kernel
  rw [toggled, ← top]
  exact ⟨h, hk, by rw [hk], unified⟩

end Session

end MailComposer
