import MailComposer.Proofs.Json.Lexemes
import MailComposer.Proofs.Measure.Numerals
import MailComposer.Proofs.Number.Nearest
import MailComposer.Proofs.Text.Ascii

/-!
Values as they are written again once they have been read. Main statement: what is written is a
number with two places at most and a unit of the control, and reading it once more gives the same
text.
-/
namespace MailComposer

open Digits (isDigit)

namespace Text

private theorem trimChars_of_not_blank {cs : List Char} (h : ∀ c ∈ cs, isBlank c = false) :
    trimChars cs = cs := by
  have kept : ∀ {cs : List Char}, (∀ c ∈ cs, isBlank c = false) → cs.dropWhile isBlank = cs := by
    intro cs h
    cases cs with
    | nil => rfl
    | cons c cs => exact List.dropWhile_cons_of_neg (Bool.eq_false_iff.mp (h c List.mem_cons_self))
  rw [trimChars, kept h, kept fun c hc => h c (List.mem_reverse.mp hc), List.reverse_reverse]

private theorem isBlank_of_isDigit {c : Char} (h : isDigit c = true) : isBlank c = false := by
  have := Digits.isDigit_iff.mp h
  simp only [isBlank, Bool.or_eq_false_iff, Bool.and_eq_false_iff, decide_eq_false_iff_not,
    beq_eq_false_iff_ne]
  omega

end Text

namespace UnitPolicy

/-- The policies of the controls. -/
def presets : List UnitPolicy :=
  [spacing, fontSize, size, percentSize, lineHeight, letterSpacing]

/-- The unit it starts with is allowed, and no unit can be taken for a part of a number or read as
another one. -/
structure Spelled (p : UnitPolicy) : Prop where
  default_mem : p.default ∈ p.allowed
  plain : ∀ u ∈ p.allowed, ∀ c ∈ u.toList,
    Text.isBlank c = false ∧ c.toLower = c ∧ isDigit c = false ∧ c ≠ '.'

theorem spelled_of_mem {p : UnitPolicy} (hp : p ∈ presets) : p.Spelled := by
  have all : ∀ p ∈ presets, p.default ∈ p.allowed ∧ ∀ u ∈ p.allowed, u.toList.all fun c =>
      Text.isBlank c = false ∧ c.toLower = c ∧ isDigit c = false ∧ c ≠ '.' := by decide +kernel
  obtain ⟨default_mem, plain⟩ := all p hp
  exact ⟨default_mem, fun u hu c hc => of_decide_eq_true (List.all_eq_true.mp (plain u hu) c hc)⟩

private theorem Spelled.settle_mem {p : UnitPolicy} (h : p.Spelled) (unit : String) :
    p.settle unit ∈ p.allowed := by
  unfold settle
  split
  · next ha => exact List.contains_iff_mem.mp ha
  · unfold fallback
    obtain ⟨u, us, hu⟩ := List.exists_cons_of_ne_nil (List.ne_nil_of_mem h.default_mem)
    rw [hu, List.head?_cons, Option.getD_some]
    exact List.mem_cons_self

/-- An allowed unit is read as itself. -/
theorem Spelled.settle_eq {p : UnitPolicy} (h : p.Spelled) {u : String} (hu : u ∈ p.allowed) :
    p.settle (Text.lower (Text.trim u)) = u := by
  have trimmed : Text.trim u = u := by
    rw [Text.trim, Text.trimChars_of_not_blank fun c hc => (h.plain u hu c hc).1,
      String.ofList_toList]
  have small : Text.lower u = u := by
    rw [Text.lower, List.map_congr_left fun c hc => (h.plain u hu c hc).2.1, List.map_id',
      String.ofList_toList]
  rw [trimmed, small, settle, accepts, if_pos (List.contains_iff_mem.mpr hu)]

end UnitPolicy

namespace Measure

/-- The places of a number with the point before them, which is left out where there are none. -/
def behindPoint (places : List Char) : List Char := if places = [] then [] else '.' :: places

def Numeral.spelling (n : Numeral) : List Char :=
  (if n.negative then ['-'] else []) ++ n.whole ++ behindPoint n.places

/-- At most two places without a zero at the end, and a sign only beside more than zero. -/
structure Numeral.Tidy (n : Numeral) : Prop where
  whole : ∃ k : Nat, n.whole = (toString k).toList
  places : Row n.places
  two : n.places.length ≤ 2
  last : n.places.getLast? ≠ some '0'
  signed : n.negative = true → n.places = [] → n.whole ≠ ['0']

namespace Numeral.Tidy
variable {n : Numeral}

private theorem row_whole (h : n.Tidy) : Row n.whole := by
  obtain ⟨k, hk⟩ := h.whole
  exact hk ▸ fun _ => Json.Lexeme.isDigit_of_mem_digits

theorem whole_ne (h : n.Tidy) : n.whole ≠ [] := by
  obtain ⟨k, hk⟩ := h.whole
  exact hk ▸ Json.Lexeme.digits_ne_nil k

theorem denotes (h : n.Tidy) : Denotes n.spelling n := by
  have sign : Sign (if n.negative then ['-'] else []) n.negative := by
    cases n.negative with
    | true => exact .minus
    | false => exact .none
  have figures : Figures (n.whole ++ behindPoint n.places) n.whole n.places := by
    unfold behindPoint
    split
    · next hp =>
      rw [hp, List.append_nil]
      exact .whole h.row_whole h.whole_ne
    · exact .pointed h.row_whole h.whole_ne h.places
  exact ⟨_, _, List.append_assoc .., sign, figures⟩

private theorem not_blank (h : n.Tidy) : ∀ c ∈ n.spelling, Text.isBlank c = false := by
  unfold spelling behindPoint
  simp only [List.forall_mem_append]
  refine ⟨⟨?_, fun c hc => Text.isBlank_of_isDigit (h.row_whole c hc)⟩, ?_⟩
  · split
    · exact List.forall_mem_singleton.mpr rfl
    · exact fun _ => nofun
  · split
    · exact fun _ => nofun
    · exact List.forall_mem_cons.mpr ⟨rfl, fun c hc => Text.isBlank_of_isDigit (h.places c hc)⟩

/-- A number with a unit is read as that number in that unit. -/
theorem ofText_spelling (h : n.Tidy) {p : UnitPolicy} (hp : p.Spelled) {u s : String}
    (hu : u ∈ p.allowed) (hs : s.toList = n.spelling ++ u.toList) : ofText p s = ⟨n.value, u⟩ := by
  have whole : Text.trimChars s.toList = n.spelling ++ u.toList := by
    rw [hs]
    refine Text.trimChars_of_not_blank ?_
    exact List.forall_mem_append.mpr ⟨h.not_blank, fun c hc => (hp.plain u hu c hc).1⟩
  have stop : ∀ c ∈ u.toList.head?, isDigit c = false ∧ c ≠ '.' :=
    fun c hc => (hp.plain u hu c (List.mem_of_mem_head? hc)).2.2
  rw [ofText, ofText?, whole, h.denotes.splitNumeral_stop stop, Option.map_some, Option.getD_some]
  dsimp only
  rw [String.ofList_toList, hp.settle_eq hu]

end Numeral.Tidy

end Measure

namespace Binary64
open MailComposer.Measure (Numeral Row behindPoint toNat_append)

private theorem toList_digit {d : Nat} (hd : d < 10) : (toString d).toList = [d.digitChar] := by
  rw [Nat.toString_eq_ofList_toDigits, String.toList_ofList, Nat.toDigits_of_lt_base hd]

private theorem digitChar_ne_zero {d : Nat} (hd : d ≠ 0) : d.digitChar ≠ '0' :=
  fun h => hd (Nat.digitChar_eq_zero.mp h)

private theorem row_digits (n : Nat) : Row (toString n).toList :=
  fun _ => Json.Lexeme.isDigit_of_mem_digits

/-- The places that are shown for some hundredths stand for what is left beside the whole. -/
private theorem exists_places (h : Nat) : ∃ ps, (places h).toList = behindPoint ps ∧ Row ps ∧
    ps.length ≤ 2 ∧ ps.getLast? ≠ some '0' ∧
    tenPow ps.length * (h % 100) = 100 * Digits.toNat ps := by
  have tens : h % 100 / 10 < 10 := by omega
  have ones : h % 10 < 10 := by omega
  have ten (c : Char) : tenPow [c].length = 10 := rfl
  have hundred (c d : Char) : tenPow ([c] ++ [d]).length = 100 := rfl
  unfold places
  split
  · next h0 => exact ⟨[], rfl, fun _ => nofun, Nat.zero_le 2, nofun, by rw [h0]; rfl⟩
  · next h0 =>
    split
    · next h1 =>
      refine ⟨(toString (h % 100 / 10)).toList, ?_, row_digits _, ?_, ?_, ?_⟩
      · rw [behindPoint, if_neg (Json.Lexeme.digits_ne_nil _)]
        exact String.toList_append
      · rw [toList_digit tens]
        exact Nat.le_succ 1
      · rw [toList_digit tens]
        exact fun he => digitChar_ne_zero (by omega) (Option.some.inj he)
      · rw [Json.Lexeme.toNat_digits, toList_digit tens, ten]
        omega
    · next h1 =>
      refine ⟨(toString (h % 100 / 10)).toList ++ (toString (h % 10)).toList, ?_, ?_, ?_, ?_, ?_⟩
      · rw [behindPoint, if_neg (List.append_ne_nil_of_left_ne_nil (Json.Lexeme.digits_ne_nil _) _)]
        exact String.toList_append.trans (congrArg (· ++ _) String.toList_append)
      · exact List.forall_mem_append.mpr ⟨row_digits _, row_digits _⟩
      · rw [toList_digit tens, toList_digit ones]
        exact Nat.le_refl 2
      · rw [toList_digit tens, toList_digit ones]
        exact fun he => digitChar_ne_zero h1 (Option.some.inj he)
      · rw [toNat_append, Json.Lexeme.toNat_digits, Json.Lexeme.toNat_digits, toList_digit tens,
          toList_digit ones, hundred, ten]
        omega

private theorem display_finite (negative : Bool) (m e : Nat) :
    display (.finite negative m e) =
      let h := hundredths (.finite negative m e)
      if h = 0 then "0" else (if negative then "-" else "") ++ toString (h / 100) ++ places h := by
  cases negative <;> rfl

/-- What is shown is a number that counts the hundredths, and only its sign and they are shown. -/
theorem exists_numeral (x : Binary64) : ∃ n : Numeral, n.Tidy ∧ x.display.toList = n.spelling ∧
    100 * (tenPow n.places.length * Digits.toNat n.whole + Digits.toNat n.places) =
      x.hundredths * tenPow n.places.length ∧
    ∀ m e, hundredths (.finite n.negative m e) = x.hundredths →
      display (.finite n.negative m e) = x.display := by
  by_cases h0 : x.hundredths = 0
  · have shown : x.display = "0" := if_pos h0
    refine ⟨⟨false, ['0'], []⟩, ⟨⟨0, rfl⟩, fun _ => nofun, Nat.zero_le 2, nofun, nofun⟩, ?_, ?_, ?_⟩
    · rw [shown]
      rfl
    · rw [h0]
      rfl
    · intro m e hm
      rw [shown, display_finite, hm]
      exact if_pos h0
  · cases x with
    | infinite | nan => exact absurd rfl h0
    | finite s m e =>
      have shown := display_finite s m e
      dsimp only at shown
      rw [if_neg h0] at shown
      generalize hh : hundredths (.finite s m e) = h at *
      obtain ⟨ps, hps, row, two, last, value⟩ := exists_places h
      refine ⟨⟨s, (toString (h / 100)).toList, ps⟩, ⟨⟨h / 100, rfl⟩, row, two, last, ?_⟩,
        ?_, ?_, ?_⟩
      · rintro - rfl (hzero : (toString (h / 100)).toList = ['0'])
        have whole := Json.Lexeme.toNat_digits (h / 100)
        rw [hzero] at whole
        change 0 = h / 100 at whole
        change 1 * (h % 100) = 100 * 0 at value
        omega
      · rw [shown, String.toList_append, String.toList_append, hps]
        cases s <;> rfl
      · rw [Json.Lexeme.toNat_digits, Nat.mul_add, ← value, Nat.mul_left_comm, ← Nat.mul_add,
          Nat.div_add_mod, Nat.mul_comm]
      · intro m' e' hm
        rw [display_finite, shown, hm]
        exact if_neg h0

end Binary64

namespace Measure

private theorem fits_ofText (p : UnitPolicy) (v : String) : (ofText p v).magnitude.Fits := by
  rw [ofText, ofText?]
  cases splitNumeral (Text.trimChars v.toList) with
  | none => exact ⟨twoPow_pos 53, Nat.zero_le 2045⟩
  | some found =>
    rw [Option.map_some, Option.getD_some]
    dsimp only
    rw [found.1.value_eq]
    exact Binary64.fits_nearest _ _ (Nat.pow_pos (by decide))

private theorem ofText_unit_mem {p : UnitPolicy} (hp : p.Spelled) (v : String) :
    (ofText p v).unit ∈ p.allowed := by
  rw [ofText, ofText?]
  cases splitNumeral (Text.trimChars v.toList) with
  | none => exact hp.default_mem
  | some found => exact hp.settle_mem _

/-- The text is a tidy number and an allowed unit behind it. -/
def Settled (p : UnitPolicy) (s : String) : Prop :=
  ∃ (n : Numeral) (unit : String), n.Tidy ∧ unit ∈ p.allowed ∧ s.toList = n.spelling ++ unit.toList

section
variable {p : UnitPolicy} (hp : p.Spelled) (v : String)
include hp

theorem settled_text : Settled p (ofText p v).text := by
  obtain ⟨n, tidy, shown, -⟩ := (ofText p v).magnitude.exists_numeral
  refine ⟨n, (ofText p v).unit, tidy, ofText_unit_mem hp v, ?_⟩
  rw [text, String.toList_append, shown]

theorem text_ofText_text : (ofText p (ofText p v).text).text = (ofText p v).text := by
  have allowed := ofText_unit_mem hp v
  have fits := fits_ofText p v
  generalize ofText p v = written at *
  obtain ⟨n, tidy, shown, value, same⟩ := written.magnitude.exists_numeral
  have spelling : written.text.toList = n.spelling ++ written.unit.toList := by
    rw [text, String.toList_append, shown]
  have places : 0 < tenPow n.places.length := Nat.pow_pos (by decide)
  have quotient : ((tenPow n.places.length * Digits.toNat n.whole + Digits.toNat n.places : Nat) /
      (tenPow n.places.length : Nat) : ℚ) = written.magnitude.hundredths / 100 := by
    rw [div_eq_div_iff (by exact_mod_cast places.ne') (by norm_num), mul_comm]
    exact_mod_cast value
  obtain ⟨m, e, nearest, hundredths⟩ := Binary64.hundredths_nearest fits n.negative places quotient
  rw [nearest] at hundredths
  rw [tidy.ofText_spelling hp allowed spelling, n.value_eq, nearest, text, text,
    same m e hundredths]

end

/-- What is written for a value is settled, and read once more it is written in the same way. -/
theorem text_settles {p : UnitPolicy} (hp : p ∈ UnitPolicy.presets) (v : String) :
    Settled p (ofText p v).text ∧ (ofText p (ofText p v).text).text = (ofText p v).text :=
  ⟨settled_text (UnitPolicy.spelled_of_mem hp) v, text_ofText_text (UnitPolicy.spelled_of_mem hp) v⟩

theorem text_settles_letterSpacing :
    Settled .letterSpacing (ofText .letterSpacing "-1.005 EM").text ∧
      (ofText .letterSpacing (ofText .letterSpacing "-1.005 EM").text).text =
        (ofText .letterSpacing "-1.005 EM").text :=
  text_settles (by decide) "-1.005 EM"

/-- The nearest number to 1.005 lies below it. -/
example : (ofText .letterSpacing "-1.005 EM").text = "-1em" ∧
    (ofText .spacing "-.001").text = "0px" ∧ (ofText .percentSize "12.50vw").text = "12.5%" := by
  decide +kernel

end Measure

end MailComposer
