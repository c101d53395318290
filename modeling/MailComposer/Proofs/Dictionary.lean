import Mathlib.Data.List.Nodup
import MailComposer.Dictionary

/-!
Entries of a dictionary: what is found under a key after others are put in, and the order in which
they stand.
-/
namespace MailComposer

namespace Entries

variable {κ ι α β : Type} [DecidableEq κ] [DecidableEq ι]

theorem get?_append (k : κ) (es ds : List (κ × α)) :
    get? k (es ++ ds) = (get? k es).or (get? k ds) := by
  induction es with
  | nil => rfl
  | cons e es ih =>
    rw [List.cons_append, get?, get?, ih]
    split <;> rfl

theorem get?_map {name : κ → ι} (hn : ∀ a b, name a = name b → a = b) (f : α → β) (k : κ)
    (es : List (κ × α)) :
    get? (name k) (es.map fun e => (name e.1, f e.2)) = (get? k es).map f := by
  induction es with
  | nil => rfl
  | cons e es ih =>
    rw [List.map_cons, get?, get?, ih]
    by_cases h : k = e.1
    · rw [if_pos h, if_pos (congrArg name h)]
      rfl
    · rw [if_neg h, if_neg fun he => h (hn k e.1 he)]

theorem get?_of_not_mem {k : κ} {es : List (κ × α)} (h : k ∉ es.map Prod.fst) :
    get? k es = none := by
  induction es with
  | nil => rfl
  | cons e es ih =>
    obtain ⟨he, hes⟩ := not_or.mp (mt List.mem_cons.mpr h)
    rw [get?, if_neg he, ih hes]

/-- Under distinct keys the order of the entries does not matter. -/
theorem get?_perm {es ds : List (κ × α)} (hp : es.Perm ds) (hn : (es.map Prod.fst).Nodup)
    (k : κ) : get? k es = get? k ds := by
  induction hp with
  | nil => rfl
  | cons e _ ih => simp only [get?, ih (List.nodup_cons.mp hn).2]
  | swap a b es =>
    have hab : b.1 ≠ a.1 := fun h => (List.nodup_cons.mp hn).1 (h ▸ List.mem_cons_self)
    simp only [get?]
    split
    · next hb => rw [if_neg fun ha => hab (hb.symm.trans ha)]
    · rfl
  | trans hp _ ih ih' => exact (ih hn).trans (ih' ((hp.map Prod.fst).nodup_iff.mp hn))

theorem get?_reverse {es : List (κ × α)} (h : (es.map Prod.fst).Nodup) (k : κ) :
    get? k es.reverse = get? k es :=
  (get?_perm es.reverse_perm.symm h k).symm

variable [LT κ] [DecidableLT κ]

private theorem insert_perm {k : κ} {es : List (κ × α)} (h : k ∉ es.map Prod.fst) (v : α) :
    (insert k v es).Perm ((k, v) :: es) := by
  induction es with
  | nil => exact .refl _
  | cons e es ih =>
    obtain ⟨he, hes⟩ := not_or.mp (mt List.mem_cons.mpr h)
    rw [insert, if_neg he]
    split
    · exact .refl _
    · exact ((ih hes).cons e).trans (.swap (k, v) e es)

theorem foldl_insert_perm {new es : List (κ × α)} (h : ((new ++ es).map Prod.fst).Nodup) :
    (new.foldl (fun es e => Entries.insert e.1 e.2 es) es).Perm (new ++ es) := by
  induction new generalizing es with
  | nil => exact .refl _
  | cons e new ih =>
    have he : e.1 ∉ es.map Prod.fst := fun hm =>
      (List.nodup_cons.mp h).1 (((List.sublist_append_right new es).map Prod.fst).subset hm)
    have hi := ((insert_perm he e.2).append_left new).trans List.perm_middle
    exact (ih ((hi.map Prod.fst).nodup_iff.mpr h)).trans hi

/-- Of several values put under one key the last is found. -/
theorem get?_foldl_insert (k : κ) (new es : List (κ × α)) :
    get? k (new.foldl (fun es e => Entries.insert e.1 e.2 es) es) =
      (get? k new.reverse).or (get? k es) := by
  induction new generalizing es with
  | nil => rfl
  | cons e new ih =>
    rw [List.foldl_cons, ih, get?_insert, List.reverse_cons, get?_append, Option.or_assoc, get?]
    split <;> rfl

variable [KeyOrder κ]

omit [DecidableEq κ] [DecidableLT κ] in
theorem Ascending.nodup_keys {es : List (κ × α)} (h : Ascending es) :
    (es.map Prod.fst).Nodup := by
  apply List.pairwise_map.mpr
  apply h.imp
  intro a b hab e
  exact KeyOrder.irrefl _ (e ▸ hab)

theorem Ascending.foldl_insert (new : List (κ × α)) {es : List (κ × α)} (h : Ascending es) :
    Ascending (new.foldl (fun es e => Entries.insert e.1 e.2 es) es) := by
  induction new generalizing es with
  | nil => exact h
  | cons e new ih => exact ih (h.insert e.1 e.2)

/-- Entries that are in order already are left as they are. -/
theorem Ascending.foldl_insert_self {es : List (κ × α)} (h : Ascending es) :
    es.foldl (fun es e => Entries.insert e.1 e.2 es) [] = es := by
  have hnil : Ascending ([] : List (κ × α)) := .nil
  refine (hnil.foldl_insert es).ext h fun k => ?_
  rw [get?_foldl_insert, get?_reverse h.nodup_keys]
  exact Option.or_none

end Entries

namespace Dictionary

variable {κ α : Type} [LT κ] [DecidableLT κ] [DecidableEq κ] [KeyOrder κ]

theorem entries_insertAll (d : Dictionary κ α) (new : List (κ × α)) :
    (d.insertAll new).entries =
      new.foldl (fun es e => Entries.insert e.1 e.2 es) d.entries := by
  induction new generalizing d with
  | nil => rfl
  | cons e new ih => exact ih (d.insert e.1 e.2)

theorem get?_insertAll (d new : Dictionary κ α) (k : κ) :
    (d.insertAll new.entries).get? k = (new.get? k).or (d.get? k) := by
  rw [get?, entries_insertAll, Entries.get?_foldl_insert,
    Entries.get?_reverse new.ascending.nodup_keys]
  rfl

omit [DecidableLT κ] in
theorem get?_filter (d : Dictionary κ α) (keep : α → Bool) (k : κ) :
    (d.filter keep).get? k = (d.get? k).filter keep := by
  refine Option.ext fun v => ?_
  rw [get?_eq_some_iff, Option.filter_eq_some_iff, get?_eq_some_iff]
  exact List.mem_filter

omit [DecidableLT κ] in
theorem get?_restrict (d : Dictionary κ α) (keep : κ → Bool) (k : κ) :
    (d.restrict keep).get? k = if keep k then d.get? k else none := by
  refine Option.ext fun v => ?_
  rw [get?_eq_some_iff]
  by_cases h : keep k = true
  · rw [if_pos h, get?_eq_some_iff]
    simp [restrict, h]
  · rw [if_neg h]
    simp [restrict, h]

omit [DecidableLT κ] in
theorem get?_restrict_of_not (d : Dictionary κ α) {keep : κ → Bool} {k : κ} (h : keep k = false) :
    (d.restrict keep).get? k = none :=
  (d.get?_restrict keep k).trans (if_neg (Bool.eq_false_iff.mp h))

end Dictionary

end MailComposer
