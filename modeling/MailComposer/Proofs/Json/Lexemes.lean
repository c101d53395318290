import MailComposer.Json.Lexeme
import MailComposer.Json.Printer

/-!
Written strings and numbers are read back as what they were written for, whatever text follows.
-/
namespace MailComposer.Json.Lexeme
open Digits (isDigit)

/-- How a character comes back: control characters without a letter of their own as units. -/
def pieceOf (c : Char) : Piece :=
  if c.toNat < 0x20 ∧ c ∉ ['\n', '\r', '\t', '\x08', '\x0c'] then .unit c.toNat else .char c

private theorem unit?_hexDigit {n : Nat} (h : n < 0x20) :
    unit? '0' '0' (hexDigit (n / 16)) (hexDigit (n % 16)) = some n := by
  have all : ∀ n : Fin 0x20, unit? '0' '0' (hexDigit (n / 16)) (hexDigit (n % 16)) =
      some n.val := by
    decide
  exact all ⟨n, h⟩

private theorem pieces_escaped (c : Char) (rest : List Char) :
    pieces (escaped c ++ rest) = (pieceOf c :: (pieces rest).1, (pieces rest).2) := by
  unfold escaped
  split
  any_goals rfl
  next hq hb hn hr ht hbs hff =>
    split
    · next hc =>
      have hp : pieceOf c = .unit c.toNat := if_pos ⟨hc, by simp_all⟩
      simp only [List.cons_append, List.nil_append, pieces, unit?_hexDigit hc, hp]
      rfl
    · next hc =>
      have hp : pieceOf c = .char c := if_neg fun h => hc h.1
      rw [List.singleton_append, pieces.eq_def, hp]
      simp only [if_neg hq, if_neg hb, if_neg hc]

private theorem pieces_quoted (cs rest : List Char) :
    pieces (cs.flatMap escaped ++ '"' :: rest) = (cs.map pieceOf, .ok rest) := by
  induction cs with
  | nil => rw [List.flatMap_nil, List.nil_append, pieces.eq_def]; rfl
  | cons c cs ih => rw [List.flatMap_cons, List.append_assoc, pieces_escaped, ih]; rfl

private theorem joined_pieceOf (cs : List Char) : joined (cs.map pieceOf) = some cs := by
  induction cs with
  | nil => rfl
  | cons c cs ih =>
    rw [List.map_cons]
    by_cases h : c.toNat < 0x20 ∧ c ∉ ['\n', '\r', '\t', '\x08', '\x0c']
    · have ht : isTrail c.toNat = false := by simp [isTrail]; omega
      have hl : isLead c.toNat = false := by simp [isLead]; omega
      rw [pieceOf, if_pos h, joined.eq_def]
      simp only [ht, hl, ih, Bool.false_eq_true, if_false, Option.map_some, Char.ofNat_toNat]
    · rw [pieceOf, if_neg h, joined, ih]
      rfl

theorem stringBody_quoted (s : String) (rest : List Char) :
    stringBody (s.toList.flatMap escaped ++ '"' :: rest) = .ok (some s, rest) := by
  rw [stringBody, pieces_quoted]
  simp only [joined_pieceOf, Option.map_some, String.ofList_toList]

/-- What may follow a number without becoming a part of it. -/
def Delimited (rest : List Char) : Prop :=
  ∀ c ∈ rest.head?, ¬ isDigit c ∧ c ≠ '.' ∧ c ≠ 'e' ∧ c ≠ 'E'

theorem Delimited.nil : Delimited [] := fun _ h => nomatch h

private theorem absorb_of_lt {n : Nat} {ds : List Char}
    (h : ds.foldl (fun n c => 10 * n + Digits.value c) n < UInt64.size) :
    absorb n ds = (ds.foldl (fun n c => 10 * n + Digits.value c) n, ds.length) := by
  induction ds generalizing n with
  | nil => rfl
  | cons d ds ih =>
    have grows (ds : List Char) (n : Nat) :
        n ≤ ds.foldl (fun n c => 10 * n + Digits.value c) n := by
      induction ds generalizing n with
      | nil => exact Nat.le_refl n
      | cons d ds ih => exact Nat.le_trans (by omega) (ih (10 * n + Digits.value d))
    rw [List.foldl_cons] at h
    rw [absorb, if_pos (Nat.lt_of_le_of_lt (grows ds _) h), ih h]
    rfl

theorem isDigit_of_mem_digits {n : Nat} {c : Char} (h : c ∈ (toString n).toList) :
    isDigit c = true := by
  rw [Nat.toString_eq_ofList_toDigits, String.toList_ofList] at h
  exact Nat.isDigit_of_mem_toDigits (by decide) (by decide) h

theorem toNat_digits (n : Nat) : Digits.toNat (toString n).toList = n := by
  rw [Nat.toString_eq_ofList_toDigits, String.toList_ofList, Digits.toNat]
  have h := Nat.ofDigitChars_ten_toDigits (n := n)
  rwa [Nat.ofDigitChars_eq_foldl] at h

theorem digits_ne_nil (n : Nat) : (toString n).toList ≠ [] := by
  rw [Nat.toString_eq_ofList_toDigits, String.toList_ofList]
  exact Nat.toDigits_ne_nil

private theorem numberValue_digits {n : Nat} (h : n < UInt64.size) :
    numberValue false (toString n).toList none none = some (.whole n) := by
  have hn : (toString n).toList.foldl (fun n c => 10 * n + Digits.value c) 0 = n := toNat_digits n
  have ha : absorb 0 (toString n).toList = (n, (toString n).toList.length) := by
    rw [absorb_of_lt (hn.symm ▸ h), hn]
  simp only [numberValue, ha, wholeOf, Option.isNone_none, Bool.and_self, beq_self_eq_true,
    Bool.not_false, if_true]

private theorem fractionPart_digits {n : Nat} (h : n < UInt64.size) {rest : List Char}
    (hr : Delimited rest) :
    fractionPart false (toString n).toList rest = (.number (.whole n), some rest) := by
  have whole : numberLexeme false (toString n).toList none none rest =
      (.number (.whole n), some rest) := by
    rw [numberLexeme, numberValue_digits h]
    rfl
  cases rest with
  | nil => exact whole
  | cons c rest =>
    obtain ⟨-, hp, he, hE⟩ := hr c rfl
    rw [fractionPart]
    · rw [exponentPart.eq_def]
      simp only [if_neg (not_or.mpr ⟨he, hE⟩), whole]
    · rintro r ⟨⟩
      exact hp rfl

/-- Digits begin with a zero only where they stand for zero. -/
private theorem head_digits (n : Nat) :
    n = 0 ∨ ∃ d ds, (toString n).toList = d :: ds ∧ d ≠ '0' := by
  rw [Nat.toString_eq_ofList_toDigits, String.toList_ofList]
  induction n using Nat.strongRecOn with
  | ind n ih =>
    rcases Nat.lt_or_ge n 10 with h | h
    · rcases Nat.eq_zero_or_pos n with h0 | h0
      · exact .inl h0
      · refine .inr ⟨n.digitChar, [], Nat.toDigits_of_lt_base h, ?_⟩
        rw [Ne, Nat.digitChar_eq_zero]
        omega
    · obtain h0 | ⟨d, ds, hds, hd⟩ := ih (n / 10) (by omega)
      · omega
      · exact .inr ⟨d, ds ++ [(n % 10).digitChar], by
          rw [Nat.toDigits_of_base_le (by decide) h, hds, List.cons_append], hd⟩

private theorem takeWhile_digits {ds rest : List Char} (hd : ∀ c ∈ ds, isDigit c = true)
    (hr : Delimited rest) :
    (ds ++ rest).takeWhile isDigit = ds ∧ (ds ++ rest).dropWhile isDigit = rest := by
  have stop : rest.takeWhile isDigit = [] ∧ rest.dropWhile isDigit = rest := by
    cases rest with
    | nil => exact ⟨rfl, rfl⟩
    | cons c rest =>
      have hc := (hr c rfl).1
      exact ⟨List.takeWhile_cons_of_neg hc, List.dropWhile_cons_of_neg hc⟩
  rw [List.takeWhile_append_of_pos hd, List.dropWhile_append_of_pos hd, stop.1, stop.2,
    List.append_nil]
  exact ⟨rfl, rfl⟩

theorem number_digits {n : Nat} (h : n < UInt64.size) {rest : List Char} (hr : Delimited rest) :
    Lexeme.number ((toString n).toList ++ rest) = (.number (.whole n), some rest) := by
  have hd : ∀ c ∈ (toString n).toList, isDigit c = true := fun _ => isDigit_of_mem_digits
  rcases head_digits n with rfl | ⟨d, ds, hds, hd0⟩
  · have h0 : rest.head?.any isDigit = false := by
      cases hc : rest.head? with
      | none => rfl
      | some c => exact Bool.eq_false_iff.mpr (hr c hc).1
    have hf := fractionPart_digits h hr
    change fractionPart false ['0'] rest = _ at hf
    change unsignedNumber false ('0' :: rest) = _
    rw [unsignedNumber, h0, hf]
    rfl
  · have hf := fractionPart_digits h hr
    obtain ⟨ht, hw⟩ := takeWhile_digits hd hr
    rw [hds] at hd ht hw hf
    rw [hds, List.cons_append, Lexeme.number]
    · rw [unsignedNumber, ← List.cons_append, ht, hw, hf]
      · rfl
      · exact List.cons_ne_nil d _
      · rintro r ⟨⟩
        exact hd0 rfl
    · rintro r ⟨⟩
      exact absurd (hd '-' List.mem_cons_self) (by decide)

end MailComposer.Json.Lexeme
