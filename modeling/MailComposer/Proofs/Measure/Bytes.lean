import MailComposer.Proofs.Measure.Numerals
import MailComposer.Proofs.Text.Ascii

/-!
Values read byte by byte. A loop over the bytes of the text finds where its number ends, the text is
cut there, and a reader of numbers in general is called on the first part. Main statement: the cut
never falls inside a character, the reader never fails, and what comes out is the longest number at
the start of the text with the unit behind it.
-/
namespace MailComposer

namespace Binary64
open Digits (isDigit)
open MailComposer.Measure (splitSign splitPlaces)

/-- The power of ten behind the digits of a number, where one is written. -/
def exponent? : List Char → Option Int
  | [] => some 0
  | c :: cs =>
    let (negative, ds) := splitSign cs
    if (c = 'e' ∨ c = 'E') ∧ ds ≠ [] ∧ ds.all isDigit then
      some (if negative then -(Digits.toNat ds : Int) else Digits.toNat ds)
    else none

/-- Takes the whole text: a decimal with or without an exponent, or a word in any case. -/
def ofChars? (cs : List Char) : Option Binary64 :=
  let (negative, body) := splitSign cs
  let word := body.map Char.toLower
  if word = "inf".toList ∨ word = "infinity".toList then some (.infinite negative)
  else if word = "nan".toList then some .nan
  else
    let (whole, behind) := Digits.split body
    let (places, behind) := splitPlaces behind
    if whole.isEmpty && places.isEmpty then none
    else (exponent? behind).map fun e =>
      nearest negative (Digits.toNat (whole ++ places) * tenPow e.toNat)
        (tenPow (places.length + (-e).toNat))

/-- A number is not spelled with letters. -/
private theorem not_letter_of_figure {c : Char} (h : isDigit c = true ∨ c = '.') :
    ¬ (c.toLower = 'i' ∨ c.toLower = 'n') := by
  rintro (hi | hn)
  · rcases eq_or_capital_of_toLower hi with rfl | rfl <;> exact absurd h (by decide)
  · rcases eq_or_capital_of_toLower hn with rfl | rfl <;> exact absurd h (by decide)

/-- A number in the grammar of values is read as such, and no word is taken for one. -/
theorem ofChars?_of_denotes {w : List Char} {n : Measure.Numeral} (h : Measure.Denotes w n) :
    ofChars? w = some n.value := by
  obtain ⟨sign, figures, rfl, hs, hf⟩ := h
  have hsign := hf.splitSign_append hs []
  obtain ⟨whole, behind, places, rest, hw, hp, hfull, hrest, hsame⟩ := hf.split_append []
  obtain ⟨rfl, rfl⟩ := hsame rfl
  obtain rfl := List.suffix_nil.mp hrest
  rw [List.append_nil] at hsign hw
  have noWord : ∀ word, word.head? = some 'i' ∨ word.head? = some 'n' →
      figures.map Char.toLower ≠ word := by
    rintro word hword rfl
    obtain ⟨c, cs, rfl, hc⟩ := hf.head
    rw [List.map_cons, List.head?_cons, Option.some_inj, Option.some_inj] at hword
    exact not_letter_of_figure hc hword
  have hinf := not_or.mpr ⟨noWord "inf".toList (.inl rfl), noWord "infinity".toList (.inl rfl)⟩
  have hnan := noWord "nan".toList (.inr rfl)
  simp only [ofChars?, hsign, hw, hp, hfull, if_neg hinf, if_neg hnan, Bool.false_eq_true, if_false]
  rw [exponent?, Option.map_some]
  refine congrArg some ?_
  rw [Measure.Numeral.value, ofDecimal]
  exact congrArg (nearest n.negative · _) (Nat.mul_one _)

end Binary64

namespace Measure
open Digits (isDigit isDigit_iff)
open Text (bytes isDigitByte utf8EncodeChar_eq_cons head?_bytes_eq_iff)

/-- How far a number has been followed, its digits so far, and whether its point was among them. -/
structure Scan where
  position : Nat
  digits : Nat
  pointed : Bool
deriving DecidableEq, Repr

namespace Scan

/-- One step further, over a digit or the first point. -/
def step (s : Scan) (digit point : Bool) : Option Scan :=
  if digit then some { s with position := s.position + 1, digits := s.digits + 1 }
  else if point && !s.pointed then some { s with position := s.position + 1, pointed := true }
  else none

def run {α : Type} (digit point : α → Bool) (s : Scan) : List α → Scan
  | [] => s
  | a :: as =>
    match s.step (digit a) (point a) with
    | some s' => run digit point s' as
    | none => s

end Scan

/-- The loop starts behind a sign. -/
def scanBytes (bs : List UInt8) : Scan :=
  let start := if bs.head? = some 43 ∨ bs.head? = some 45 then 1 else 0
  Scan.run isDigitByte (· == 46) ⟨start, 0, false⟩ (bs.drop start)

/-- Cuts a text behind so many bytes, if a character ends there. -/
def cutAtByte? : List Char → Nat → Option (List Char × List Char)
  | cs, 0 => some ([], cs)
  | [], _ + 1 => none
  | c :: cs, n + 1 =>
    if c.utf8Size ≤ n + 1 then
      (cutAtByte? cs (n + 1 - c.utf8Size)).map fun (before, behind) => (c :: before, behind)
    else none

/-- How reading a value can end. -/
inductive Ending where
  | noNumber
  | cutInside
  | unreadable
  | read (m : Measure)
deriving DecidableEq, Repr

def readBytewise (p : UnitPolicy) (s : String) : Ending :=
  let cs := Text.trimChars s.toList
  let scan := scanBytes (bytes cs)
  if scan.digits = 0 then .noNumber
  else
    match cutAtByte? cs scan.position with
    | none => .cutInside
    | some (number, rest) =>
      match Binary64.ofChars? number with
      | none => .unreadable
      | some x => .read ⟨x, p.settle (Text.lower (Text.trim (String.ofList rest)))⟩

namespace Scan
variable {s s' : Scan}

private theorem step_isSome {digit point : Bool} (h : s.step digit point = some s') :
    digit = true ∨ point = true := by
  cases digit with
  | true => exact .inl rfl
  | false =>
    cases point with
    | true => exact .inr rfl
    | false => cases h

/-- Over the characters of a text the loop goes as over its bytes. -/
theorem run_bytes (s : Scan) (cs : List Char) :
    s.run isDigitByte (· == 46) (bytes cs) = s.run isDigit (· == '.') cs := by
  induction cs generalizing s with
  | nil => rfl
  | cons c cs ih =>
    obtain ⟨b, bs, hb, lead, single⟩ := utf8EncodeChar_eq_cons c
    have point : (b == 46) = (c == '.') := by
      rw [Bool.eq_iff_iff, beq_iff_eq, beq_iff_eq]
      exact lead.eq_iff rfl (by decide)
    rw [bytes, List.flatMap_cons, hb, List.cons_append, run, run, lead.isDigit, point]
    cases hs : s.step (isDigit c) (c == '.') with
    | none => rfl
    | some s' =>
      -- What the loop steps over is a single byte, so both runs go on with the next character.
      have narrow : c.toNat ≤ 127 := by
        rcases step_isSome hs with hd | hp
        · exact (isDigit_iff.mp hd).2.trans (by decide)
        · exact eq_of_beq hp ▸ (by decide : '.'.toNat ≤ 127)
      rw [single narrow, List.nil_append]
      exact ih s'

private theorem run_row {ds : List Char} (h : Row ds) (s : Scan) (cs : List Char) :
    s.run isDigit (· == '.') (ds ++ cs) =
      run isDigit (· == '.') ⟨s.position + ds.length, s.digits + ds.length, s.pointed⟩ cs := by
  induction ds generalizing s with
  | nil => rfl
  | cons d ds ih =>
    obtain ⟨hd, hds⟩ := List.forall_mem_cons.mp h
    rw [List.cons_append, run, step, if_pos hd]
    simp only [ih hds, List.length_cons, Nat.add_assoc, Nat.add_comm 1]

private theorem run_split (s : Scan) (cs : List Char) :
    s.run isDigit (· == '.') cs =
      run isDigit (· == '.') ⟨s.position + (Digits.split cs).1.length,
        s.digits + (Digits.split cs).1.length, s.pointed⟩ (Digits.split cs).2 := by
  rw [← run_row (row_split cs), ← split_eq_append]

private theorem run_stop {cs : List Char} (hd : ∀ c ∈ cs.head?, isDigit c = false)
    (hp : s.pointed = true ∨ ∀ c ∈ cs.head?, c ≠ '.') : s.run isDigit (· == '.') cs = s := by
  cases cs with
  | nil => rfl
  | cons c cs =>
    have second : ((c == '.') && !s.pointed) = false := by
      rcases hp with hp | hp
      · rw [hp, Bool.not_true, Bool.and_false]
      · rw [beq_eq_false_iff_ne.mpr (hp c rfl), Bool.false_and]
    rw [run, step, hd c rfl, second]
    rfl

/-- Behind a row of digits the loop goes through the places, if there are any, and stops. -/
private theorem run_splitPlaces {cs : List Char} (hd : ∀ c ∈ cs.head?, isDigit c = false)
    (hs : s.pointed = false) :
    (s.run isDigit (· == '.') cs).position + (splitPlaces cs).2.length =
        s.position + cs.length ∧
      (s.run isDigit (· == '.') cs).digits = s.digits + (splitPlaces cs).1.length := by
  rcases splitPlaces_cases cs with ⟨r, rfl, hp⟩ | ⟨noPoint, hp⟩
  · have point : s.step (isDigit '.') ('.' == '.') =
        some ⟨s.position + 1, s.digits, true⟩ := by
      rw [step, hs]
      rfl
    have lengths := length_split r
    rw [hp, run, point]
    dsimp only
    rw [run_split, run_stop (head?_split r) (.inl rfl), List.length_cons]
    exact ⟨by dsimp only; omega, rfl⟩
  · rw [hp, run_stop hd (.inr noPoint)]
    exact ⟨rfl, rfl⟩

end Scan

private theorem scanBytes_eq (cs : List Char) :
    ∃ start, scanBytes (bytes cs) =
        Scan.run isDigit (· == '.') ⟨start, 0, false⟩ (splitSign cs).2 ∧
      start + (splitSign cs).2.length = cs.length := by
  unfold splitSign
  split
  · next r => exact ⟨1, Scan.run_bytes _ r, Nat.add_comm 1 r.length⟩
  · next r => exact ⟨1, Scan.run_bytes _ r, Nat.add_comm 1 r.length⟩
  · next hminus hplus =>
    have unsigned : ¬ ((bytes cs).head? = some 43 ∨ (bytes cs).head? = some 45) := by
      rw [head?_bytes_eq_iff (a := '+') rfl (by decide),
        head?_bytes_eq_iff (a := '-') rfl (by decide), List.head?_eq_some_iff,
        List.head?_eq_some_iff]
      rintro (⟨r, hr⟩ | ⟨r, hr⟩)
      · exact hplus r hr
      · exact hminus r hr
    refine ⟨0, ?_, Nat.zero_add _⟩
    rw [scanBytes, if_neg unsigned]
    exact Scan.run_bytes _ cs

/-- The loop counts the digits of the whole and of the places, and ends behind them. -/
theorem scanBytes_bytes (cs : List Char) :
    (scanBytes (bytes cs)).position +
        (splitPlaces (Digits.split (splitSign cs).2).2).2.length = cs.length ∧
      (scanBytes (bytes cs)).digits = (Digits.split (splitSign cs).2).1.length +
        (splitPlaces (Digits.split (splitSign cs).2).2).1.length := by
  obtain ⟨start, hscan, hstart⟩ := scanBytes_eq cs
  have hwhole := length_split (splitSign cs).2
  obtain ⟨hposition, hdigits⟩ := Scan.run_splitPlaces (head?_split (splitSign cs).2)
    (s := ⟨start + _, 0 + _, false⟩) rfl
  rw [← Scan.run_split ⟨start, 0, false⟩, ← hscan] at hposition hdigits
  dsimp only at hposition hdigits
  omega

private theorem digits_eq_zero {cs : List Char} (h : splitNumeral cs = none) :
    (scanBytes (bytes cs)).digits = 0 := by
  unfold splitNumeral at h
  dsimp only at h
  split at h
  · next hempty =>
    obtain ⟨hwhole, hplaces⟩ := Bool.and_eq_true_iff.mp hempty
    rw [(scanBytes_bytes cs).2, List.isEmpty_iff.mp hwhole, List.isEmpty_iff.mp hplaces]
    rfl
  · cases h

private theorem digits_ne_zero {cs rest : List Char} {n : Numeral}
    (h : splitNumeral cs = some (n, rest)) : (scanBytes (bytes cs)).digits ≠ 0 ∧
      (scanBytes (bytes cs)).position + rest.length = cs.length := by
  obtain ⟨hposition, hdigits⟩ := scanBytes_bytes cs
  unfold splitNumeral at h
  dsimp only at h
  split at h
  · cases h
  · next hfull =>
    obtain ⟨-, rfl⟩ := Prod.mk.inj (Option.some.inj h)
    refine ⟨fun hzero => hfull ?_, hposition⟩
    rw [Bool.and_eq_true, List.isEmpty_iff_length_eq_zero, List.isEmpty_iff_length_eq_zero]
    omega

theorem Row.narrow {ds : List Char} (h : Row ds) : ∀ c ∈ ds, c.toNat ≤ 127 :=
  fun c hc => (isDigit_iff.mp (h c hc)).2.trans (by decide)

theorem Sign.narrow {sign : List Char} {negative : Bool} (h : Sign sign negative) :
    ∀ c ∈ sign, c.toNat ≤ 127 := by
  cases h with
  | none => exact fun _ => nofun
  | plus | minus => exact List.forall_mem_singleton.mpr (by decide)

theorem Figures.narrow {figures ds ps : List Char} (h : Figures figures ds ps) :
    ∀ c ∈ figures, c.toNat ≤ 127 := by
  have behindPoint {ps : List Char} (hp : Row ps) : ∀ c ∈ '.' :: ps, c.toNat ≤ 127 :=
    List.forall_mem_cons.mpr ⟨by decide, hp.narrow⟩
  cases h with
  | whole hd hne => exact hd.narrow
  | pointed hd hne hp => exact List.forall_mem_append.mpr ⟨hd.narrow, behindPoint hp⟩
  | fraction hp hne => exact behindPoint hp

theorem Denotes.narrow {w : List Char} {n : Numeral} (h : Denotes w n) :
    ∀ c ∈ w, c.toNat ≤ 127 := by
  obtain ⟨sign, figures, rfl, hs, hf⟩ := h
  exact List.forall_mem_append.mpr ⟨hs.narrow, hf.narrow⟩

private theorem cutAtByte?_append {w : List Char} (h : ∀ c ∈ w, c.toNat ≤ 127) (rest : List Char) :
    cutAtByte? (w ++ rest) w.length = some (w, rest) := by
  induction w with
  | nil => cases rest <;> rfl
  | cons c w ih =>
    obtain ⟨hc, hw⟩ := List.forall_mem_cons.mp h
    have size : c.utf8Size = 1 := Char.utf8Size_eq_one_iff.mpr (UInt32.le_iff_toNat_le.mpr hc)
    rw [List.cons_append, List.length_cons, cutAtByte?, size, if_pos (Nat.le_add_left 1 _),
      Nat.add_sub_cancel, ih hw]
    rfl

/-- Of the four endings two occur: byte by byte a value is read as by its characters. -/
theorem readBytewise_eq (p : UnitPolicy) (s : String) :
    readBytewise p s = (ofText? p s).elim .noNumber .read := by
  unfold readBytewise ofText?
  dsimp only
  cases h : splitNumeral (Text.trimChars s.toList) with
  | none =>
    rw [if_pos (digits_eq_zero h)]
    rfl
  | some found =>
    obtain ⟨n, rest⟩ := found
    obtain ⟨w, hw⟩ := longest_of_splitNumeral h
    obtain ⟨hdigits, hposition⟩ := digits_ne_zero h
    have behind : (scanBytes (bytes (Text.trimChars s.toList))).position = w.length := by
      have lengths := congrArg List.length hw.text
      rw [List.length_append] at lengths
      omega
    have cut := cutAtByte?_append hw.denotes.narrow rest
    rw [← hw.text, ← behind] at cut
    rw [if_neg hdigits, cut]
    dsimp only
    rw [Binary64.ofChars?_of_denotes hw.denotes]
    rfl

theorem settle_eq (p : UnitPolicy) (unit : String) :
    p.settle unit = if unit ∈ p.allowed then unit else p.allowed.head?.getD p.default := by
  simp only [UnitPolicy.settle, UnitPolicy.accepts, UnitPolicy.fallback, List.contains_iff_mem]

private theorem ofText?_eq_some_iff {p : UnitPolicy} {s : String} {m : Measure} :
    ofText? p s = some m ↔ ∃ w n rest, Longest (Text.trimChars s.toList) w n rest ∧
      m = ⟨n.value, p.settle (Text.lower (Text.trim (String.ofList rest)))⟩ := by
  rw [ofText?, Option.map_eq_some_iff, Prod.exists]
  constructor
  · rintro ⟨n, rest, hsplit, rfl⟩
    obtain ⟨w, hw⟩ := splitNumeral_eq_some_iff.mp hsplit
    exact ⟨w, n, rest, hw, rfl⟩
  · rintro ⟨w, n, rest, hw, rfl⟩
    exact ⟨n, rest, splitNumeral_eq_some_iff.mpr ⟨w, hw⟩, rfl⟩

/-- A value counts as the longest number at its start, in the unit behind it or else in the first
that is allowed. It is left unread exactly where no number stands at its start, and is zero then. -/
theorem ofText?_longest (p : UnitPolicy) (s : String) :
    (ofText? p s = none ↔ ∀ w n, Denotes w n → ¬ w <+: Text.trimChars s.toList) ∧
    (∀ m, ofText? p s = some m ↔ ∃ w n rest, Longest (Text.trimChars s.toList) w n rest ∧
      m.magnitude = .nearest n.negative
        (tenPow n.places.length * Digits.toNat n.whole + Digits.toNat n.places)
        (tenPow n.places.length) ∧
      m.unit =
        let unit := Text.lower (Text.trim (String.ofList rest))
        if unit ∈ p.allowed then unit else p.allowed.head?.getD p.default) ∧
    (readBytewise p s = match ofText? p s with
      | some m => .read m
      | none => .noNumber) ∧
    ofText p s = match ofText? p s with
      | some m => m
      | none => ⟨.zero, p.default⟩ := by
  refine ⟨Option.map_eq_none_iff.trans splitNumeral_eq_none_iff, fun m => ?_, ?_, ?_⟩
  · rw [ofText?_eq_some_iff]
    refine exists_congr fun w => exists_congr fun n => exists_congr fun rest =>
      and_congr_right fun _ => ?_
    rw [← n.value_eq, ← settle_eq, Measure.mk.injEq]
  · rw [readBytewise_eq]
    cases ofText? p s <;> rfl
  · rw [ofText]
    cases ofText? p s <;> rfl

end Measure

end MailComposer
