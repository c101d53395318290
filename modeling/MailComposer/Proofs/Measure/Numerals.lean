import Mathlib.Data.List.TakeWhile
import MailComposer.Measure

/-!
The number at the start of a value. A grammar says which texts are numbers; main statement: cutting
a text finds the longest of them that it begins with, and finds nothing only where it begins with
none.
-/
namespace MailComposer.Measure
open Digits (isDigit)

def Row (ds : List Char) : Prop := ∀ d ∈ ds, isDigit d = true

inductive Sign : List Char → Bool → Prop
  | none : Sign [] false
  | plus : Sign ['+'] false
  | minus : Sign ['-'] true

/-- Digits, and digits behind a point. The point can stand at one end, but not alone. -/
inductive Figures : List Char → List Char → List Char → Prop
  | whole {ds : List Char} (hd : Row ds) (hne : ds ≠ []) : Figures ds ds []
  | pointed {ds ps : List Char} (hd : Row ds) (hne : ds ≠ []) (hp : Row ps) :
    Figures (ds ++ '.' :: ps) ds ps
  | fraction {ps : List Char} (hp : Row ps) (hne : ps ≠ []) : Figures ('.' :: ps) [] ps

/-- The text is a number, with this sign and these digits. -/
def Denotes (w : List Char) (n : Numeral) : Prop :=
  ∃ sign figures, w = sign ++ figures ∧ Sign sign n.negative ∧ Figures figures n.whole n.places

/-- Of the numbers that a text begins with, the longest, and what follows it. -/
structure Longest (cs w : List Char) (n : Numeral) (rest : List Char) : Prop where
  text : cs = w ++ rest
  denotes : Denotes w n
  longest : ∀ w' n', Denotes w' n' → w' <+: cs → w' <+: w

private theorem splitSign_eq (cs : List Char) :
    ∃ sign, cs = sign ++ (splitSign cs).2 ∧ Sign sign (splitSign cs).1 := by
  unfold splitSign
  split
  · exact ⟨['-'], rfl, .minus⟩
  · exact ⟨['+'], rfl, .plus⟩
  · exact ⟨[], rfl, .none⟩

theorem splitSign_append {sign : List Char} {negative : Bool} (h : Sign sign negative)
    {cs : List Char} (hc : ∀ c ∈ cs.head?, c ≠ '-' ∧ c ≠ '+') :
    splitSign (sign ++ cs) = (negative, cs) := by
  cases h with
  | plus | minus => rfl
  | none =>
    rw [List.nil_append]
    unfold splitSign
    split
    · exact absurd rfl (hc '-' rfl).1
    · exact absurd rfl (hc '+' rfl).2
    · rfl

theorem row_split (cs : List Char) : Row (Digits.split cs).1 := fun _ => List.mem_takeWhile_imp

theorem split_eq_append (cs : List Char) :
    cs = (Digits.split cs).1 ++ (Digits.split cs).2 := List.takeWhile_append_dropWhile.symm

theorem length_split (cs : List Char) :
    (Digits.split cs).1.length + (Digits.split cs).2.length = cs.length := by
  rw [← List.length_append, ← split_eq_append]

/-- What follows a row of digits begins with none. -/
theorem head?_split (cs : List Char) : ∀ c ∈ (Digits.split cs).2.head?, isDigit c = false := by
  intro c hc
  have stop := List.head?_dropWhile_not isDigit cs
  rw [show (cs.dropWhile isDigit).head? = some c from hc] at stop
  exact stop

private theorem split_suffix (cs : List Char) : (Digits.split cs).2 <:+ cs :=
  List.dropWhile_suffix isDigit

theorem split_append {ds : List Char} (h : Row ds) (cs : List Char) :
    Digits.split (ds ++ cs) = (ds ++ (Digits.split cs).1, (Digits.split cs).2) := by
  rw [Digits.split, List.takeWhile_append_of_pos h, List.dropWhile_append_of_pos h]
  rfl

theorem splitPlaces_cases (cs : List Char) :
    (∃ r, cs = '.' :: r ∧ splitPlaces cs = Digits.split r) ∨
      (∀ c ∈ cs.head?, c ≠ '.') ∧ splitPlaces cs = ([], cs) := by
  unfold splitPlaces
  split
  · exact .inl ⟨_, rfl, rfl⟩
  · next hpoint =>
    refine .inr ⟨?_, rfl⟩
    rintro c hc rfl
    obtain ⟨r, rfl⟩ := List.head?_eq_some_iff.mp hc
    exact hpoint r rfl

private theorem splitPlaces_suffix (cs : List Char) : (splitPlaces cs).2 <:+ cs := by
  rcases splitPlaces_cases cs with ⟨r, rfl, h⟩ | ⟨-, h⟩
  · exact h ▸ (split_suffix r).trans (List.suffix_cons '.' r)
  · exact h ▸ List.suffix_refl cs

private theorem figures_of_split {ds cs : List Char} (hd : Row ds)
    (h : (ds.isEmpty && (splitPlaces cs).1.isEmpty) = false) :
    ∃ figures, ds ++ cs = figures ++ (splitPlaces cs).2 ∧
      Figures figures ds (splitPlaces cs).1 := by
  rcases splitPlaces_cases cs with ⟨r, rfl, hp⟩ | ⟨-, hp⟩
  · rw [hp] at h ⊢
    have behind := split_eq_append r
    cases ds with
    | nil =>
      refine ⟨'.' :: (Digits.split r).1, ?_, .fraction (row_split r) ?_⟩
      · exact congrArg ('.' :: ·) behind
      · exact List.isEmpty_eq_false_iff.mp h
    | cons d ds =>
      refine ⟨d :: ds ++ '.' :: (Digits.split r).1, ?_,
        .pointed hd (List.cons_ne_nil d ds) (row_split r)⟩
      rw [List.append_assoc]
      exact congrArg (d :: ds ++ '.' :: ·) behind
  · rw [hp] at h ⊢
    have full : ds ≠ [] := by
      rw [List.isEmpty_nil, Bool.and_true] at h
      exact List.isEmpty_eq_false_iff.mp h
    exact ⟨ds, rfl, .whole hd full⟩

private theorem denotes_of_splitNumeral {cs rest : List Char} {n : Numeral}
    (h : splitNumeral cs = some (n, rest)) : ∃ w, cs = w ++ rest ∧ Denotes w n := by
  obtain ⟨sign, htext, hsign⟩ := splitSign_eq cs
  unfold splitNumeral at h
  dsimp only at h
  split at h
  · cases h
  · next hfull =>
    obtain ⟨rfl, rfl⟩ := Prod.mk.inj (Option.some.inj h)
    obtain ⟨figures, hbody, hfigures⟩ :=
      figures_of_split (row_split (splitSign cs).2) (Bool.eq_false_iff.mpr hfull)
    rw [← split_eq_append] at hbody
    refine ⟨sign ++ figures, ?_, sign, figures, rfl, hsign, hfigures⟩
    rw [List.append_assoc, ← hbody]
    exact htext

section
variable {w figures ds ps : List Char} {n : Numeral}

/-- Behind its sign a number begins with a digit or a point. -/
theorem Figures.head (h : Figures figures ds ps) :
    ∃ c cs, figures = c :: cs ∧ (isDigit c = true ∨ c = '.') := by
  cases h with
  | fraction hp hne => exact ⟨'.', ps, rfl, .inr rfl⟩
  | whole hd hne =>
    obtain ⟨d, ds, rfl⟩ := List.exists_cons_of_ne_nil hne
    exact ⟨d, ds, rfl, .inl (hd d List.mem_cons_self)⟩
  | pointed hd hne hp =>
    obtain ⟨d, ds, rfl⟩ := List.exists_cons_of_ne_nil hne
    exact ⟨d, _, rfl, .inl (hd d List.mem_cons_self)⟩

theorem Figures.splitSign_append (h : Figures figures ds ps) {sign : List Char} {negative : Bool}
    (hs : Sign sign negative) (tail : List Char) :
    splitSign (sign ++ (figures ++ tail)) = (negative, figures ++ tail) := by
  refine Measure.splitSign_append hs fun c hc => ?_
  obtain ⟨d, cs, rfl, hd⟩ := h.head
  obtain rfl : d = c := Option.some.inj hc
  constructor
  · rintro rfl
    exact absurd hd (by decide)
  · rintro rfl
    exact absurd hd (by decide)

/-- In front of any text the figures are cut off, with as much of the text as continues them. -/
theorem Figures.split_append (h : Figures figures ds ps) (tail : List Char) :
    ∃ whole behind places rest, Digits.split (figures ++ tail) = (whole, behind) ∧
      splitPlaces behind = (places, rest) ∧ (whole.isEmpty && places.isEmpty) = false ∧
      rest <:+ tail ∧ (tail = [] → whole = ds ∧ places = ps) := by
  have point (cs : List Char) : Digits.split ('.' :: cs) = ([], '.' :: cs) := rfl
  cases h with
  | whole hd hne =>
    refine ⟨_, _, _, _, Measure.split_append hd tail, rfl, ?_,
      (splitPlaces_suffix _).trans (split_suffix tail), ?_⟩
    · rw [List.isEmpty_eq_false_iff.mpr (List.append_ne_nil_of_left_ne_nil hne _), Bool.false_and]
    · rintro rfl
      exact ⟨List.append_nil _, rfl⟩
  | pointed hd hne hp =>
    have cut := Measure.split_append hd ('.' :: (ps ++ tail))
    rw [point, List.append_nil] at cut
    refine ⟨ds, '.' :: (ps ++ tail), _, _, ?_, Measure.split_append hp tail, ?_,
      split_suffix tail, ?_⟩
    · rw [List.append_assoc, List.cons_append, cut]
    · rw [List.isEmpty_eq_false_iff.mpr hne, Bool.false_and]
    · rintro rfl
      exact ⟨rfl, List.append_nil ps⟩
  | fraction hp hne =>
    refine ⟨[], '.' :: (ps ++ tail), _, _, rfl, Measure.split_append hp tail, ?_,
      split_suffix tail, ?_⟩
    · rw [List.isEmpty_eq_false_iff.mpr (List.append_ne_nil_of_left_ne_nil hne _), Bool.and_false]
    · rintro rfl
      exact ⟨rfl, List.append_nil ps⟩

private theorem Denotes.splitNumeral_append (h : Denotes w n) (tail : List Char) :
    ∃ n' rest, splitNumeral (w ++ tail) = some (n', rest) ∧ rest <:+ tail ∧
      (tail = [] → n' = n) := by
  obtain ⟨sign, figures, rfl, hs, hf⟩ := h
  obtain ⟨whole, behind, places, rest, hw, hp, hfull, hrest, hsame⟩ := hf.split_append tail
  refine ⟨⟨n.negative, whole, places⟩, rest, ?_, hrest, fun ht => ?_⟩
  · rw [List.append_assoc, splitNumeral, hf.splitSign_append hs tail]
    simp only [hw, hp, hfull, Bool.false_eq_true, if_false]
  · obtain ⟨rfl, rfl⟩ := hsame ht
    rfl

private theorem split_stop (h : Row ds) {rest : List Char}
    (hr : ∀ c ∈ rest.head?, isDigit c = false) : Digits.split (ds ++ rest) = (ds, rest) := by
  have stop : Digits.split rest = ([], rest) := by
    cases rest with
    | nil => rfl
    | cons c rest =>
      have hc := Bool.eq_false_iff.mp (hr c rfl)
      rw [Digits.split, List.takeWhile_cons_of_neg hc, List.dropWhile_cons_of_neg hc]
  rw [Measure.split_append h, stop, List.append_nil]

/-- A number ends where no digit and no point follows. -/
theorem Denotes.splitNumeral_stop (h : Denotes w n) {rest : List Char}
    (hr : ∀ c ∈ rest.head?, isDigit c = false ∧ c ≠ '.') :
    splitNumeral (w ++ rest) = some (n, rest) := by
  obtain ⟨sign, figures, rfl, hs, hf⟩ := h
  have noDigit : ∀ c ∈ rest.head?, isDigit c = false := fun c hc => (hr c hc).1
  have hparts : ∃ behind, Digits.split (figures ++ rest) = (n.whole, behind) ∧
      splitPlaces behind = (n.places, rest) ∧ (n.whole.isEmpty && n.places.isEmpty) = false := by
    generalize n.whole = ds, n.places = ps at hf
    cases hf with
    | whole hd hne =>
      refine ⟨rest, split_stop hd noDigit, ?_, ?_⟩
      · rcases splitPlaces_cases rest with ⟨r, rfl, -⟩ | ⟨-, hp⟩
        · exact absurd rfl (hr '.' rfl).2
        · exact hp
      · rw [List.isEmpty_eq_false_iff.mpr hne, Bool.false_and]
    | pointed hd hne hp =>
      refine ⟨'.' :: (ps ++ rest), ?_, split_stop hp noDigit, ?_⟩
      · rw [List.append_assoc]
        refine split_stop hd fun c hc => ?_
        obtain rfl : '.' = c := Option.some.inj hc
        rfl
      · rw [List.isEmpty_eq_false_iff.mpr hne, Bool.false_and]
    | fraction hp hne =>
      exact ⟨'.' :: (ps ++ rest), rfl, split_stop hp noDigit,
        List.isEmpty_eq_false_iff.mpr hne⟩
  obtain ⟨behind, hw, hp, hfull⟩ := hparts
  rw [List.append_assoc, splitNumeral, hf.splitSign_append hs rest]
  simp only [hw, hp, hfull, Bool.false_eq_true, if_false]

/-- A number can be read in one way. -/
theorem Denotes.unique {n' : Numeral} (h : Denotes w n) (h' : Denotes w n') : n = n' := by
  obtain ⟨m, rest, hm, -, hn⟩ := h.splitNumeral_append []
  obtain ⟨m', rest', hm', -, hn'⟩ := h'.splitNumeral_append []
  obtain ⟨rfl, -⟩ := Prod.mk.inj (Option.some.inj (hm.symm.trans hm'))
  rw [← hn rfl, ← hn' rfl]

end

theorem longest_of_splitNumeral {cs rest : List Char} {n : Numeral}
    (h : splitNumeral cs = some (n, rest)) : ∃ w, Longest cs w n rest := by
  obtain ⟨w, htext, hw⟩ := denotes_of_splitNumeral h
  refine ⟨w, htext, hw, fun w' n' hw' hprefix => ?_⟩
  obtain ⟨tail, rfl⟩ := hprefix
  obtain ⟨m, behind, hm, hsuffix, -⟩ := hw'.splitNumeral_append tail
  rw [h] at hm
  obtain ⟨-, rfl⟩ := Prod.mk.inj (Option.some.inj hm)
  have shorter : rest.length ≤ tail.length := hsuffix.length_le
  have lengths := congrArg List.length htext
  rw [List.length_append, List.length_append] at lengths
  exact List.prefix_of_prefix_length_le ⟨tail, rfl⟩ ⟨rest, htext.symm⟩ (by omega)

theorem splitNumeral_eq_some_iff {cs rest : List Char} {n : Numeral} :
    splitNumeral cs = some (n, rest) ↔ ∃ w, Longest cs w n rest := by
  constructor
  · exact longest_of_splitNumeral
  · rintro ⟨w, h⟩
    obtain ⟨n', rest', hn', -⟩ := h.denotes.splitNumeral_append rest
    rw [← h.text] at hn'
    obtain ⟨w', h'⟩ := longest_of_splitNumeral hn'
    -- Each of the two is a prefix of the other.
    have there := h.longest w' n' h'.denotes ⟨rest', h'.text.symm⟩
    have back := h'.longest w n h.denotes ⟨rest, h.text.symm⟩
    obtain rfl : w = w' := back.eq_of_length_le there.length_le
    obtain rfl := h.denotes.unique h'.denotes
    rw [hn', List.append_cancel_left (h.text.symm.trans h'.text)]

/-- A second point and an exponent end a number. -/
example : splitNumeral "-.5.2em".toList = some (⟨true, [], ['5']⟩, ".2em".toList) ∧
    splitNumeral "+12.e3".toList = some (⟨false, ['1', '2'], []⟩, "e3".toList) ∧
    splitNumeral "-.em".toList = none := by decide

theorem splitNumeral_eq_none_iff {cs : List Char} :
    splitNumeral cs = none ↔ ∀ w n, Denotes w n → ¬ w <+: cs := by
  constructor
  · rintro h w n hw ⟨tail, rfl⟩
    obtain ⟨n', rest, hn', -⟩ := hw.splitNumeral_append tail
    rw [h] at hn'
    cases hn'
  · intro h
    cases hs : splitNumeral cs with
    | none => rfl
    | some found =>
      obtain ⟨w, htext, hw⟩ := denotes_of_splitNumeral hs
      exact absurd ⟨found.2, htext.symm⟩ (h w found.1 hw)

theorem toNat_append (ds es : List Char) :
    Digits.toNat (ds ++ es) = tenPow es.length * Digits.toNat ds + Digits.toNat es :=
  (Nat.ofDigitChars_append 0).trans Nat.ofDigitChars_eq_ofDigitChars_zero

theorem Numeral.value_eq (n : Numeral) :
    n.value = .nearest n.negative
      (tenPow n.places.length * Digits.toNat n.whole + Digits.toNat n.places)
      (tenPow n.places.length) := by
  rw [value, Binary64.ofDecimal, toNat_append]

end MailComposer.Measure
