import MailComposer.Proofs.Dictionary
import MailComposer.Style.StyleMap

/-!
A style map as a function of keys, those of the vocabulary and all others alike.
-/
namespace MailComposer

theorem Property.key_injective (p q : Property) (h : p.key = q.key) : p = q := by
  have ho := ofKey?_key p
  rw [h, ofKey?_key] at ho
  exact (Option.some.inj ho).symm

namespace StyleMap

/-- What stands under a key, a name of the vocabulary or not. -/
def value? (s : StyleMap) (key : String) : Option String :=
  match Property.ofKey? key with
  | some p => s.get? p
  | none => s.extra? key

private theorem extra?_of_key (s : StyleMap) {key : String} {p : Property}
    (h : Property.ofKey? key = some p) : s.extra? key = none := by
  apply Entries.get?_of_not_mem
  intro hm
  obtain ⟨e, he, rfl⟩ := List.mem_map.mp hm
  rw [s.foreign e he] at h
  cases h

theorem ext_value? {a b : StyleMap} (h : ∀ key, a.value? key = b.value? key) : a = b := by
  apply ext_parts
  · apply Dictionary.ext_get?
    intro p
    have hp := h p.key
    rw [value?, value?, Property.ofKey?_key] at hp
    exact hp
  · apply Dictionary.ext_get?
    intro key
    have hk := h key
    cases ho : Property.ofKey? key with
    | some p => exact (a.extra?_of_key ho).trans (b.extra?_of_key ho).symm
    | none =>
      rw [value?, value?, ho] at hk
      exact hk

@[simp] theorem value?_empty (key : String) : empty.value? key = none := by
  rw [value?]
  split <;> rfl

theorem value?_set (s : StyleMap) (p : Property) (value key : String) :
    (s.set p value).value? key = if key = p.key then some value else s.value? key := by
  unfold value?
  cases ho : Property.ofKey? key with
  | none =>
    have hk : key ≠ p.key := fun e => by rw [e, Property.ofKey?_key] at ho; cases ho
    rw [if_neg hk]
    rfl
  | some q =>
    have hq := Property.key_of_ofKey? ho
    refine (Dictionary.get?_insert s.known p q value).trans ?_
    by_cases h : q = p
    · rw [if_pos h, if_pos (by rw [← hq, h])]
    · rw [if_neg h, if_neg fun e => h ?_]
      · rfl
      · exact Property.key_injective q p (hq.trans e)

private theorem value?_setExtra (s : StyleMap) (key value : String) (h : Property.ofKey? key = none)
    (key' : String) :
    (s.setExtra key value h).value? key' = if key' = key then some value else s.value? key' := by
  unfold value?
  cases ho : Property.ofKey? key' with
  | none => exact Dictionary.get?_insert s.extras key key' value
  | some q =>
    have hk : key' ≠ key := fun e => by rw [e, h] at ho; cases ho
    rw [if_neg hk]
    rfl

theorem value?_setKey (s : StyleMap) (key value key' : String) :
    (s.setKey key value).value? key' = if key' = key then some value else s.value? key' := by
  unfold setKey
  split
  · next p hp => rw [value?_set, Property.key_of_ofKey? hp]
  · next hp => exact value?_setExtra s key value hp key'

theorem value?_merge (s new : StyleMap) (key : String) :
    (s.merge new).value? key = (new.value? key).or (s.value? key) := by
  rw [value?, value?, value?]
  cases Property.ofKey? key with
  | none => exact Dictionary.get?_insertAll s.extras new.extras key
  | some p => exact Dictionary.get?_insertAll s.known new.known p

theorem nonEmpty?_ne_empty {s : StyleMap} {p : Property} {v : String}
    (h : s.nonEmpty? p = some v) : v ≠ "" :=
  of_decide_eq_true (Option.filter_eq_some_iff.mp h).2

private theorem value?_filled (s : StyleMap) (key : String) :
    s.filled.value? key = (s.value? key).filter fun v => decide (v ≠ "") := by
  rw [value?, value?]
  cases Property.ofKey? key with
  | some p => exact Dictionary.get?_filter s.known _ p
  | none => exact Dictionary.get?_filter s.extras _ key

theorem filled_filled (s : StyleMap) : s.filled.filled = s.filled := by
  apply ext_value?
  intro key
  rw [value?_filled, value?_filled, Option.filter_filter]
  simp only [Bool.and_self]

/-- What is laid over other styles can be laid over them once more. -/
theorem merge_filled_merge (s own : StyleMap) :
    s.merge (s.merge own.filled).filled = s.merge own.filled := by
  apply ext_value?
  intro key
  rw [value?_merge, value?_filled, value?_merge, value?_filled]
  cases h : (own.value? key).filter fun v => decide (v ≠ "") with
  | none =>
    rw [Option.none_or]
    cases s.value? key with
    | none => rfl
    | some v =>
      rw [Option.filter_some]
      split <;> rfl
  | some v =>
    have hv : decide (v ≠ "") = true := (Option.filter_eq_some_iff.mp h).2
    rw [Option.some_or, Option.filter_some, if_pos hv, Option.some_or]

theorem merge_filled_empty (s : StyleMap) : s.merge empty.filled = s := by
  apply ext_value?
  intro key
  rw [value?_merge, value?_filled, value?_empty]
  rfl

private theorem keys_known (s : StyleMap) {key : String}
    (h : key ∈ (s.known.entries.map fun e => (e.1.key, e.2)).map Prod.fst) :
    Property.ofKey? key ≠ none := by
  rw [List.map_map] at h
  obtain ⟨e, -, rfl⟩ := List.mem_map.mp h
  rw [Function.comp_apply, Property.ofKey?_key]
  nofun

theorem nodup_keys_entries (s : StyleMap) : (s.entries.map Prod.fst).Nodup := by
  rw [entries, List.map_append]
  refine List.nodup_append.mpr ⟨?_, s.extras.ascending.nodup_keys, fun a ha b hb e => ?_⟩
  · rw [List.map_map]
    have hd : (s.known.entries.map (Property.key ∘ Prod.fst)).Nodup := by
      rw [← List.map_map]
      refine List.pairwise_map.mpr (s.known.ascending.nodup_keys.imp fun {p q} hne e => hne ?_)
      exact Property.key_injective p q e
    exact hd
  · obtain ⟨d, hd, rfl⟩ := List.mem_map.mp hb
    exact s.keys_known ha (e ▸ s.foreign d hd)

theorem get?_entries (s : StyleMap) (key : String) :
    Entries.get? key s.entries = s.value? key := by
  rw [entries, Entries.get?_append, value?]
  cases ho : Property.ofKey? key with
  | none =>
    rw [Entries.get?_of_not_mem fun hm => s.keys_known hm ho]
    exact Option.none_or
  | some p =>
    have hx : Entries.get? key s.extras.entries = none := s.extra?_of_key ho
    rw [hx, Option.or_none]
    have hk := Entries.get?_map Property.key_injective id p s.known.entries
    rw [Property.key_of_ofKey? ho, Option.map_id] at hk
    exact hk

theorem eq_empty_of_isEmpty {s : StyleMap} (h : s.isEmpty = true) : s = .empty := by
  obtain ⟨hk, he⟩ := Bool.and_eq_true_iff.mp h
  have none : s.entries = [] := by
    rw [entries, List.isEmpty_iff.mp hk, List.isEmpty_iff.mp he]
    rfl
  apply ext_value?
  intro key
  rw [← get?_entries, none, value?_empty]
  rfl

end StyleMap

end MailComposer
