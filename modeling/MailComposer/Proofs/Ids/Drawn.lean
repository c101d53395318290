import Mathlib.Data.List.Nodup
import Std.Data.String.ToNat
import MailComposer.Ids

/-!
The ids that a source gives one after the other. A numbered series gives only ids that start with
its seed, and none of them twice while its count has room.
-/
namespace MailComposer

namespace IdSource
variable {σ : Type} [IdSource σ]

/-- The first `n` ids that a source gives. -/
def drawn (ids : σ) (n : Nat) : List String := (take ids n).1

/-- The source when `n` ids are drawn. -/
def after (ids : σ) (n : Nat) : σ := (take ids n).2

@[simp] theorem drawn_zero (ids : σ) : drawn ids 0 = [] := rfl

@[simp] theorem after_zero (ids : σ) : after ids 0 = ids := rfl

theorem drawn_succ (ids : σ) (n : Nat) :
    drawn ids (n + 1) = (next ids).1 :: drawn (next ids).2 n := rfl

theorem after_succ (ids : σ) (n : Nat) : after ids (n + 1) = after (next ids).2 n := rfl

theorem after_add (ids : σ) (m n : Nat) : after ids (m + n) = after (after ids m) n := by
  induction m generalizing ids with
  | zero => rw [Nat.zero_add, after_zero]
  | succ m ih => rw [Nat.succ_add, after_succ, ih, after_succ]

theorem drawn_add (ids : σ) (m n : Nat) :
    drawn ids (m + n) = drawn ids m ++ drawn (after ids m) n := by
  induction m generalizing ids with
  | zero => rw [Nat.zero_add, drawn_zero, after_zero, List.nil_append]
  | succ m ih => rw [Nat.succ_add, drawn_succ, ih, drawn_succ, after_succ, List.cons_append]

end IdSource

namespace SerialIds
open IdSource

/-- The id with a number in the series of a seed. -/
def numbered (seed : String) (n : Nat) : String := seed ++ "-" ++ toString n

theorem numbered_injective {seed : String} {m n : Nat} (h : numbered seed m = numbered seed n) :
    m = n := by
  have ht := congrArg String.toList h
  simp only [numbered, String.toList_append] at ht
  exact Nat.repr_inj.mp (String.toList_injective (List.append_cancel_left ht))

private theorem next_of_room (ids : SerialIds) (h : ids.count.toNat + 1 < UInt32.size) :
    (next ids).1 = numbered ids.seed (ids.count.toNat + 1) ∧ (next ids).2.seed = ids.seed ∧
      (next ids).2.count.toNat = ids.count.toNat + 1 := by
  have hc : (ids.count + 1).toNat = ids.count.toNat + 1 := by
    rw [UInt32.toNat_add, UInt32.toNat_one, Nat.mod_eq_of_lt h]
  exact ⟨congrArg (numbered ids.seed) hc, rfl, hc⟩

theorem drawn_eq (ids : SerialIds) (n : Nat) (h : ids.count.toNat + n < UInt32.size) :
    drawn ids n = (List.range' (ids.count.toNat + 1) n).map (numbered ids.seed) := by
  induction n generalizing ids with
  | zero => rfl
  | succ n ih =>
    obtain ⟨hid, hseed, hcount⟩ := next_of_room ids (by omega)
    have hrest := ih (next ids).2 (by omega)
    rw [drawn_succ, hrest, hid, hseed, hcount, List.range'_succ, List.map_cons]

/-- Ids of one series are distinct, and stay apart from ids that are not of its form. -/
theorem nodup_drawn_append {ids : SerialIds} {used : List String} (hu : used.Nodup)
    (hs : ∀ n, numbered ids.seed n ∉ used) (n : Nat) (hw : ids.count.toNat + n < UInt32.size) :
    (drawn ids n ++ used).Nodup := by
  rw [drawn_eq ids n hw]
  refine List.nodup_append.mpr ⟨?_, hu, ?_⟩
  · exact List.Nodup.map (fun _ _ h => numbered_injective h) (List.nodup_range' ..)
  · intro i hi j hj hij
    obtain ⟨k, _, rfl⟩ := List.mem_map.mp hi
    exact hs k (hij ▸ hj)

end SerialIds

end MailComposer
