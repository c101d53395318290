import Mathlib.Algebra.Order.Field.Basic
import Mathlib.Algebra.Order.Field.Rat
import Mathlib.Algebra.Order.Ring.Abs
import Mathlib.Algebra.Ring.Parity
import Mathlib.Data.Nat.Log
import Mathlib.Tactic.Linarith
import Mathlib.Tactic.Ring
import Mathlib.Tactic.FieldSimp
import MailComposer.Number.Fixed

/-!
Rounding to a grid. What lies as near to a point of the grid as a number that is rounded there is
rounded there itself. Main statement: of all numbers of the format the one that a quotient is
rounded to is the nearest, and there is one as long as some number of the format is as large.
-/
namespace MailComposer

private theorem cast_twoPow (k : Nat) : (twoPow k : ℚ) = 2 ^ k := Nat.cast_pow 2 k

theorem twoPow_pos (k : Nat) : 0 < twoPow k := Nat.pow_pos two_pos

private theorem twoPow_add (j k : Nat) : twoPow (j + k) = twoPow j * twoPow k := Nat.pow_add 2 j k

private theorem twoPow_le {j k : Nat} (h : j ≤ k) : twoPow j ≤ twoPow k :=
  Nat.pow_le_pow_right two_pos h

namespace Binary64

private theorem unit_pos : 0 < unit := twoPow_pos 1074

private theorem cast_unit_pos : (0 : ℚ) < unit := by exact_mod_cast unit_pos

/-- The whole number is nearest, or the even one of two that are. -/
def HalfEven (q : ℚ) (n : Nat) : Prop := |q - n| < 1 / 2 ∨ |q - n| = 1 / 2 ∧ Even n

namespace HalfEven
variable {q y : ℚ} {n k : Nat}

private theorem le_half (h : HalfEven q n) : |q - n| ≤ 1 / 2 := by
  rcases h with h | h
  · exact h.le
  · exact h.1.le

private theorem one_le_add (q : ℚ) (h : n ≠ k) : 1 ≤ |q - n| + |q - k| := by
  have apart : (1 : ℤ) ≤ |(n : ℤ) - k| := Int.one_le_abs (sub_ne_zero.mpr (Nat.cast_injective.ne h))
  have apart : (1 : ℚ) ≤ |(n : ℚ) - k| := by exact_mod_cast apart
  calc (1 : ℚ) ≤ |(q - k) - (q - n)| := by rwa [sub_sub_sub_cancel_left]
    _ ≤ |q - n| + |q - k| := (abs_sub _ _).trans_eq (add_comm _ _)

private theorem near (h : HalfEven q n) (k : Nat) : |q - n| ≤ |q - k| := by
  by_cases hk : n = k
  · rw [hk]
  · have := one_le_add q hk
    have := h.le_half
    linarith

theorem unique (h : HalfEven q n) (hk : HalfEven q k) : n = k := by
  by_contra hne
  have := one_le_add q hne
  have hn := h.le_half
  have hk' := hk.le_half
  -- Both are half a unit away and even, and they are neighbours.
  have en : Even n := (h.resolve_left (by linarith)).2
  have ek : Even k := (hk.resolve_left (by linarith)).2
  have close : |(n : ℚ) - k| ≤ 1 := by
    calc |(n : ℚ) - k| = |(q - k) - (q - n)| := by rw [sub_sub_sub_cancel_left]
      _ ≤ |q - k| + |q - n| := abs_sub _ _
      _ ≤ 1 := by linarith
  have close : |(n : ℤ) - k| ≤ 1 := by exact_mod_cast close
  obtain ⟨a, rfl⟩ := en
  obtain ⟨b, rfl⟩ := ek
  rw [abs_le] at close
  omega

/-- What is as near to a whole number as one that rounds to it rounds to it as well. -/
theorem of_near (h : HalfEven q n) (hy : |y - n| ≤ |q - n|) : HalfEven y n := by
  rcases h with h | ⟨h, he⟩
  · exact .inl (hy.trans_lt h)
  · rcases lt_or_eq_of_le (hy.trans_eq h) with hlt | heq
    · exact .inl hlt
    · exact .inr ⟨heq, he⟩

private theorem le_of_le (h : HalfEven q n) (hq : q ≤ k) : n ≤ k := by
  by_contra hk
  have hkn : (k : ℚ) < n := by exact_mod_cast not_le.mp hk
  have := h.near k
  rw [abs_of_nonpos (by linarith), abs_of_nonpos (by linarith)] at this
  linarith

end HalfEven

private theorem halfEven_roundHalfEven (num : Nat) {den : Nat} (hden : 0 < den) :
    HalfEven (num / den) (roundHalfEven num den) := by
  have hd : (0 : ℚ) < den := by exact_mod_cast hden
  have parts : (num / den : ℚ) = (num / den : Nat) + (num % den : Nat) / den := by
    have whole : (den * (num / den) + num % den : Nat) = num := Nat.div_add_mod num den
    field_simp
    exact_mod_cast whole.symm
  have small : 2 * (num % den) < den ↔ ((num % den : Nat) / den : ℚ) < 1 / 2 := by
    rw [div_lt_div_iff₀ hd two_pos, mul_comm, one_mul]
    exact_mod_cast Iff.rfl
  have large : den < 2 * (num % den) ↔ 1 / 2 < ((num % den : Nat) / den : ℚ) := by
    rw [div_lt_div_iff₀ two_pos hd, mul_comm _ (2 : ℚ), one_mul]
    exact_mod_cast Iff.rfl
  have low : (0 : ℚ) ≤ (num % den : Nat) / den := div_nonneg (Nat.cast_nonneg _) hd.le
  have high : ((num % den : Nat) / den : ℚ) < 1 := by
    rw [div_lt_iff₀ hd, one_mul]
    exact_mod_cast Nat.mod_lt num hden
  rw [roundHalfEven, parts]
  simp only [small, large]
  generalize num / den = q at *
  generalize ((num % den : Nat) / den : ℚ) = t at *
  have down : |(q : ℚ) + t - q| = t := by rw [add_sub_cancel_left, abs_of_nonneg low]
  have up : |(q : ℚ) + t - (q + 1 : Nat)| = 1 - t := by
    rw [Nat.cast_add, Nat.cast_one, add_sub_add_left_eq_sub, abs_sub_comm, abs_of_nonneg]
    linarith
  by_cases hs : t < 1 / 2
  · rw [if_pos hs]
    exact .inl (down.trans_lt hs)
  · by_cases hl : 1 / 2 < t
    · rw [if_neg hs, if_pos hl]
      exact .inl (up.trans_lt (by linarith))
    · have half : t = 1 / 2 := le_antisymm (not_lt.mp hl) (not_lt.mp hs)
      rw [if_neg hs, if_neg hl]
      split
      · next he => exact .inr ⟨down.trans half, Nat.even_iff.mpr he⟩
      · next ho =>
        refine .inr ⟨up.trans (by linarith), ?_⟩
        exact (Nat.not_even_iff_odd.mp (mt Nat.even_iff.mp ho)).add_one

/-- The number of smallest steps in a finite number. -/
def steps : Binary64 → Nat
  | .finite _ m e => m * twoPow e
  | _ => 0

/-- The size of a finite number. -/
def size (x : Binary64) : ℚ := x.steps / unit

/-- The significand and the exponent are in the range of the format. -/
def Fits : Binary64 → Prop
  | .finite _ m e => m < twoPow 53 ∧ e ≤ 2045
  | _ => True

theorem Fits.steps_eq {x : Binary64} (h : x.Fits) :
    ∃ m e, x.steps = m * twoPow e ∧ m < twoPow 53 ∧ e ≤ 2045 := by
  cases x with
  | finite s m e => exact ⟨m, e, rfl, h⟩
  | infinite | nan => exact ⟨0, 0, rfl, twoPow_pos 53, Nat.zero_le 2045⟩

private theorem halfEven_hundredths (x : Binary64) : HalfEven (100 * x.size) x.hundredths := by
  have nothing : HalfEven (100 * ((0 : Nat) / unit)) 0 := by
    refine .inl ?_
    rw [Nat.cast_zero, zero_div, mul_zero, sub_zero, abs_zero]
    exact half_pos one_pos
  cases x with
  | finite s m e =>
    have h := halfEven_roundHalfEven (m * twoPow e * 100) unit_pos
    rw [Nat.cast_mul, Nat.cast_ofNat, mul_comm, mul_div_assoc] at h
    exact h
  | infinite | nan => exact nothing

/-- The binary places of a quotient that are behind its first 53. -/
def dropped (steps den : Nat) : Nat := (steps / den).log2 - 52

/-- The quotient without these places. -/
def kept (steps den : Nat) : Nat := roundHalfEven steps (den * twoPow (dropped steps den))

section
variable (steps : Nat) {den : Nat} (hden : 0 < den)
include hden

private theorem quotient_lt : (steps / den : ℚ) < 2 ^ (53 + dropped steps den) := by
  have hd : (0 : ℚ) < den := by exact_mod_cast hden
  have h : steps / den < 2 ^ (53 + dropped steps den) := by
    refine Nat.lt_of_lt_of_le Nat.lt_log2_self (Nat.pow_le_pow_right two_pos ?_)
    unfold dropped
    omega
  rw [div_lt_iff₀ hd]
  exact_mod_cast (Nat.div_lt_iff_lt_mul hden).mp h

private theorem le_quotient (h : 0 < dropped steps den) :
    (2 ^ (52 + dropped steps den) : ℚ) ≤ steps / den := by
  have hd : (0 : ℚ) < den := by exact_mod_cast hden
  have places : 52 + dropped steps den = (steps / den).log2 := by
    unfold dropped at h ⊢
    omega
  have some : steps / den ≠ 0 := by
    intro hz
    rw [hz, Nat.log2_zero] at places
    omega
  rw [places, le_div_iff₀ hd]
  exact_mod_cast (Nat.le_div_iff_mul_le hden).mp (Nat.log2_self_le some)

private theorem halfEven_kept :
    HalfEven (steps / den / 2 ^ dropped steps den) (kept steps den) := by
  have h := halfEven_roundHalfEven steps (Nat.mul_pos hden (twoPow_pos (dropped steps den)))
  rw [Nat.cast_mul, ← div_div] at h
  rwa [← cast_twoPow]

private theorem kept_le : kept steps den ≤ twoPow 53 := by
  refine (halfEven_kept steps hden).le_of_le ?_
  rw [div_le_iff₀ (pow_pos two_pos _), cast_twoPow, ← pow_add]
  exact (quotient_lt steps hden).le

/-- No number of 53 digits is nearer to the quotient, whatever its exponent. -/
private theorem kept_near {m : Nat} (hm : m < twoPow 53) (e : Nat) :
    |(steps / den : ℚ) - kept steps den * 2 ^ dropped steps den| ≤
      |(steps / den : ℚ) - m * 2 ^ e| := by
  have scaled (k : Nat) : |(steps / den : ℚ) - k * 2 ^ dropped steps den| =
      |steps / den / 2 ^ dropped steps den - (k : ℚ)| * 2 ^ dropped steps den := by
    have pos : (0 : ℚ) < 2 ^ dropped steps den := pow_pos two_pos _
    rw [← abs_of_pos pos, ← abs_mul, abs_of_pos pos, sub_mul, div_mul_cancel₀ _ pos.ne']
  have near (k : Nat) : |(steps / den : ℚ) - kept steps den * 2 ^ dropped steps den| ≤
      |(steps / den : ℚ) - k * 2 ^ dropped steps den| := by
    rw [scaled, scaled]
    exact mul_le_mul_of_nonneg_right ((halfEven_kept steps hden).near k) (pow_nonneg two_pos.le _)
  by_cases he : dropped steps den ≤ e
  · have h := near (m * 2 ^ (e - dropped steps den))
    rwa [Nat.cast_mul, Nat.cast_pow, Nat.cast_ofNat, mul_assoc, ← pow_add,
      Nat.sub_add_cancel he] at h
  · -- A finer number lies below the least one with 53 digits, and that is on the grid.
    have h := near (2 ^ 52)
    rw [Nat.cast_pow, Nat.cast_ofNat, ← pow_add] at h
    have low := le_quotient steps hden (by omega)
    have fine : (m * 2 ^ e : ℚ) ≤ 2 ^ (52 + dropped steps den) := by
      have hm' : (m : ℚ) ≤ 2 ^ 53 := by exact_mod_cast hm.le
      calc (m * 2 ^ e : ℚ) ≤ 2 ^ 53 * 2 ^ e :=
            mul_le_mul_of_nonneg_right hm' (pow_nonneg two_pos.le _)
        _ = 2 ^ (53 + e) := (pow_add _ _ _).symm
        _ ≤ 2 ^ (52 + dropped steps den) := pow_le_pow_right₀ one_le_two (by omega)
    refine h.trans ?_
    rw [abs_of_nonneg (sub_nonneg.mpr low), abs_of_nonneg (sub_nonneg.mpr (fine.trans low))]
    exact sub_le_sub_left fine _

end

private theorem rounded_eq (negative : Bool) (steps den : Nat) :
    (let shift := (steps / den).log2 - 52
      let m := roundHalfEven steps (den * twoPow shift)
      let (m, shift) := if m = twoPow 53 then (twoPow 52, shift + 1) else (m, shift)
      if 2045 < shift then infinite negative else finite negative m shift) =
      if kept steps den = twoPow 53 then
        if 2045 < dropped steps den + 1 then .infinite negative
        else .finite negative (twoPow 52) (dropped steps den + 1)
      else if 2045 < dropped steps den then .infinite negative
      else .finite negative (kept steps den) (dropped steps den) := by
  change (match
      if kept steps den = twoPow 53 then (twoPow 52, dropped steps den + 1)
      else (kept steps den, dropped steps den) with
    | (m, shift) => if 2045 < shift then infinite negative else finite negative m shift) = _
  by_cases hk : kept steps den = twoPow 53
  · rw [if_pos hk, if_pos hk]
  · rw [if_neg hk, if_neg hk]

/-- The definition as a whole: compared at arguments, the two sides would have `unit` unfolded. -/
private theorem nearest_def : nearest = fun negative num den =>
    let steps := num * unit
    let shift := (steps / den).log2 - 52
    let m := roundHalfEven steps (den * twoPow shift)
    let (m, shift) := if m = twoPow 53 then (twoPow 52, shift + 1) else (m, shift)
    if 2045 < shift then .infinite negative else .finite negative m shift := rfl

theorem nearest_eq (negative : Bool) (num den : Nat) :
    nearest negative num den =
      if kept (num * unit) den = twoPow 53 then
        if 2045 < dropped (num * unit) den + 1 then .infinite negative
        else .finite negative (twoPow 52) (dropped (num * unit) den + 1)
      else if 2045 < dropped (num * unit) den then .infinite negative
      else .finite negative (kept (num * unit) den) (dropped (num * unit) den) := by
  rw [nearest_def]
  exact rounded_eq negative (num * unit) den

theorem fits_nearest (negative : Bool) (num : Nat) {den : Nat} (hden : 0 < den) :
    (nearest negative num den).Fits := by
  rw [nearest_eq]
  generalize num * unit = steps
  split
  · split
    · trivial
    · next h => exact ⟨Nat.pow_lt_pow_right (by decide) (by decide), Nat.not_lt.mp h⟩
  · next hk =>
    split
    · trivial
    · next h => exact ⟨Nat.lt_of_le_of_ne (kept_le steps hden) hk, Nat.not_lt.mp h⟩

/-- A quotient that is no larger than some number of the format is rounded to one. -/
theorem exists_nearest (negative : Bool) (num : Nat) {den : Nat} (hden : 0 < den) {z : Binary64}
    (hz : z.Fits) (hle : (num / den : ℚ) ≤ z.size) :
    ∃ m e, nearest negative num den = .finite negative m e ∧ ∀ x : Binary64, x.Fits →
      |(num / den : ℚ) - size (.finite negative m e)| ≤ |(num / den : ℚ) - x.size| := by
  have inSteps (r : ℚ) :
      |(num / den : ℚ) - r / unit| = |((num * unit : Nat) / den : ℚ) - r| / unit := by
    rw [← abs_of_pos cast_unit_pos, ← abs_div, abs_of_pos cast_unit_pos, sub_div, Nat.cast_mul,
      div_right_comm, mul_div_cancel_right₀ _ cast_unit_pos.ne']
  have near {m e : Nat}
      (h : (m * 2 ^ e : ℚ) = kept (num * unit) den * 2 ^ dropped (num * unit) den) (x : Binary64)
      (hx : x.Fits) :
      |(num / den : ℚ) - size (.finite negative m e)| ≤ |(num / den : ℚ) - x.size| := by
    obtain ⟨m', e', hsteps, hm', -⟩ := hx.steps_eq
    have hself : ((finite negative m e).steps : ℚ) = m * 2 ^ e := by
      rw [steps, Nat.cast_mul, cast_twoPow]
    have hother : (x.steps : ℚ) = m' * 2 ^ e' := by
      rw [hsteps, Nat.cast_mul, cast_twoPow]
    rw [size, size, inSteps, inSteps, hself, hother, h]
    exact div_le_div_of_nonneg_right (kept_near _ hden hm' e') cast_unit_pos.le
  obtain ⟨m, e, hsteps, hm, he⟩ := hz.steps_eq
  have bound : ((num * unit : Nat) / den : ℚ) ≤ m * 2 ^ 2045 := by
    rw [size, le_div_iff₀ cast_unit_pos, hsteps, div_mul_eq_mul_div, ← Nat.cast_mul] at hle
    refine hle.trans ?_
    rw [Nat.cast_mul, cast_twoPow]
    exact mul_le_mul_of_nonneg_left (pow_le_pow_right₀ one_le_two he) (Nat.cast_nonneg m)
  have range : dropped (num * unit) den ≤ 2045 := by
    by_contra hd
    have low := le_quotient (num * unit) hden (by omega)
    have high : (m * 2 ^ 2045 : ℚ) < 2 ^ (52 + dropped (num * unit) den) := by
      have hm' : (m : ℚ) < 2 ^ 53 := by exact_mod_cast hm
      calc (m * 2 ^ 2045 : ℚ) < 2 ^ 53 * 2 ^ 2045 := mul_lt_mul_of_pos_right hm' (pow_pos two_pos _)
        _ = 2 ^ (53 + 2045) := (pow_add _ _ _).symm
        _ ≤ 2 ^ (52 + dropped (num * unit) den) := pow_le_pow_right₀ one_le_two (by omega)
    exact absurd (low.trans bound) (not_le.mpr high)
  rw [nearest_eq]
  by_cases hk : kept (num * unit) den = twoPow 53
  · have room : dropped (num * unit) den ≠ 2045 := by
      intro hd
      have h := halfEven_kept (num * unit) hden
      rw [hd] at h
      have := h.le_of_le ((div_le_iff₀ (pow_pos two_pos _)).mpr bound)
      omega
    rw [if_pos hk, if_neg (by omega)]
    refine ⟨_, _, rfl, near ?_⟩
    rw [hk, cast_twoPow, cast_twoPow, ← pow_add, ← pow_add]
    congr 1
    omega
  · rw [if_neg hk, if_neg (by omega)]
    exact ⟨_, _, rfl, near rfl⟩

/-- The largest number of the format. -/
def largest : Binary64 := .finite false (twoPow 53 - 1) 2045

private theorem size_largest : largest.size = ((twoPow 53 - 1) * twoPow 971 : Nat) := by
  have split : unit * twoPow 971 = twoPow 2045 := by rw [unit, ← twoPow_add]
  rw [size, div_eq_iff cast_unit_pos.ne', ← Nat.cast_mul, largest, steps, ← split,
    Nat.mul_comm unit, Nat.mul_assoc]

private theorem Fits.size_le {x : Binary64} (h : x.Fits) : x.size ≤ largest.size := by
  obtain ⟨m, e, hsteps, hm, he⟩ := h.steps_eq
  refine div_le_div_of_nonneg_right ?_ cast_unit_pos.le
  rw [hsteps]
  exact Nat.cast_le.mpr (Nat.mul_le_mul (Nat.le_sub_one_of_lt hm) (twoPow_le he))

/-- The number nearest to some hundredths that a number was rounded to is rounded to them again. -/
theorem hundredths_nearest {x : Binary64} (hx : x.Fits) (negative : Bool) {num den : Nat}
    (hden : 0 < den) (h : (num / den : ℚ) = x.hundredths / 100) :
    ∃ m e, nearest negative num den = .finite negative m e ∧
      (nearest negative num den).hundredths = x.hundredths := by
  have rounded := halfEven_hundredths x
  have inRange : (num / den : ℚ) ≤ largest.size := by
    have hle : 100 * x.size ≤ ((100 * ((twoPow 53 - 1) * twoPow 971) : Nat) : ℚ) := by
      rw [Nat.cast_mul, ← size_largest]
      exact mul_le_mul_of_nonneg_left hx.size_le (Nat.cast_nonneg _)
    have hmax : (x.hundredths : ℚ) ≤ (100 * ((twoPow 53 - 1) * twoPow 971) : Nat) := by
      exact_mod_cast rounded.le_of_le hle
    rw [h, div_le_iff₀ (by norm_num), size_largest, mul_comm]
    exact_mod_cast hmax
  obtain ⟨m, e, heq, near⟩ := exists_nearest negative num hden
    (z := largest) ⟨Nat.sub_lt (twoPow_pos 53) Nat.one_pos, Nat.le_refl 2045⟩ inRange
  refine ⟨m, e, heq, ?_⟩
  rw [heq]
  refine (halfEven_hundredths _).unique (rounded.of_near ?_)
  have hn := near x hx
  rw [h] at hn
  have times (r : ℚ) : |100 * r - x.hundredths| = 100 * |x.hundredths / 100 - r| := by
    rw [abs_sub_comm, ← abs_of_pos (show (0 : ℚ) < 100 by norm_num), ← abs_mul,
      abs_of_pos (show (0 : ℚ) < 100 by norm_num), mul_sub, mul_div_cancel₀]
    norm_num
  rw [times, times]
  exact mul_le_mul_of_nonneg_left hn (by norm_num)

end Binary64

end MailComposer
