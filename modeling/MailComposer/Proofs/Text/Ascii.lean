import MailComposer.Number.Digits

/-!
Characters of ASCII: capitals and digits by their numbers, and the bytes of a text. The first byte
of a character tells it from all characters that take one byte.
-/
namespace MailComposer

private theorem isUpper_iff {c : Char} : c.isUpper = true ↔ 65 ≤ c.toNat ∧ c.toNat ≤ 90 :=
  decide_eq_true_iff

/-- What holds of the capitals one by one holds of every capital. -/
theorem of_isUpper {p : Char → Prop} (h : ∀ n < 26, p (Char.ofNat (65 + n))) {c : Char}
    (hu : c.isUpper = true) : p c := by
  obtain ⟨hA, hZ⟩ := isUpper_iff.mp hu
  have hp := h (c.toNat - 65) (by omega)
  rwa [Nat.add_sub_of_le hA, Char.ofNat_toNat] at hp

/-- What holds of each capital beside its small letter, and of any other character beside itself,
holds of all characters beside their small letters. -/
theorem of_toLower {p : Char → Char → Prop}
    (capital : ∀ n < 26, p (Char.ofNat (65 + n)) (Char.ofNat (65 + n)).toLower)
    (other : ∀ c : Char, c.isUpper = false → p c c) (c : Char) : p c c.toLower := by
  cases hu : c.isUpper with
  | true => exact of_isUpper (p := fun c => p c c.toLower) capital hu
  | false =>
    have hc : c.toLower = c := dif_neg (of_decide_eq_false hu)
    rw [hc]
    exact other c hu

/-- A character with a given small letter is that letter or its capital. -/
theorem eq_or_capital_of_toLower {c d : Char} (h : c.toLower = d) :
    c = d ∨ c = Char.ofNat (d.toNat - 32) := by
  subst h
  exact of_toLower (p := fun c d => c = d ∨ c = Char.ofNat (d.toNat - 32)) (by decide)
    (fun _ _ => .inl rfl) c

/-- The capital of a small letter. -/
theorem capital_of_toLower {c d : Char} (hu : c.isUpper = true) (h : c.toLower = d) :
    c = Char.ofNat (d.toNat - 32) := by
  subst h
  exact of_isUpper (p := fun c => c = Char.ofNat (c.toLower.toNat - 32)) (by decide) hu

theorem Digits.isDigit_iff {c : Char} : isDigit c = true ↔ 48 ≤ c.toNat ∧ c.toNat ≤ 57 := by
  simp only [isDigit, Char.isDigit, Bool.and_eq_true, decide_eq_true_eq, UInt32.le_iff_toNat_le,
    ge_iff_le]
  rfl

namespace Text

/-- The text in UTF-8. -/
def bytes (cs : List Char) : List UInt8 := cs.flatMap String.utf8EncodeChar

def isDigitByte (b : UInt8) : Bool := 48 ≤ b && b ≤ 57

/-- The first byte of a character: its number, or above all the numbers of one byte. -/
def Leads (b : UInt8) (c : Char) : Prop := b.toNat = c.toNat ∨ 127 < b.toNat ∧ 127 < c.toNat

theorem utf8EncodeChar_eq_cons (c : Char) :
    ∃ b bs, String.utf8EncodeChar c = b :: bs ∧ Leads b c ∧ (c.toNat ≤ 127 → bs = []) := by
  have above (n k : Nat) (hk : 128 ≤ k) (h : n + k < 256) : 127 < (UInt8.ofNat (n + k)).toNat := by
    rw [UInt8.toNat_ofNat', Nat.mod_eq_of_lt h]
    exact Nat.lt_of_lt_of_le hk (Nat.le_add_left k n)
  by_cases narrow : c.toNat ≤ 127
  · refine ⟨UInt8.ofNat c.toNat, [], if_pos narrow, .inl ?_, fun _ => rfl⟩
    rw [UInt8.toNat_ofNat', Nat.mod_eq_of_lt (by omega)]
  · have wide : 127 < c.toNat := Nat.lt_of_not_le narrow
    rw [String.utf8EncodeChar, if_neg (show ¬ c.val.toNat ≤ 127 from narrow)]
    -- Two, three or four bytes: each form has its own lowest first byte.
    split
    · exact ⟨_, _, rfl, .inr ⟨above _ 192 (by decide) (by omega), wide⟩, (absurd · narrow)⟩
    · split
      · exact ⟨_, _, rfl, .inr ⟨above _ 224 (by decide) (by omega), wide⟩, (absurd · narrow)⟩
      · exact ⟨_, _, rfl, .inr ⟨above _ 240 (by decide) (by omega), wide⟩, (absurd · narrow)⟩

section
variable {b x : UInt8} {c a : Char}

theorem Leads.isDigit (h : Leads b c) : isDigitByte b = Digits.isDigit c := by
  rw [Bool.eq_iff_iff, Digits.isDigit_iff, isDigitByte, Bool.and_eq_true, decide_eq_true_eq,
    decide_eq_true_eq, UInt8.le_iff_toNat_le, UInt8.le_iff_toNat_le]
  change 48 ≤ b.toNat ∧ b.toNat ≤ 57 ↔ _
  rcases h with h | h <;> omega

theorem Leads.eq_iff (h : Leads b c) (hx : x.toNat = a.toNat) (narrow : a.toNat ≤ 127) :
    b = x ↔ c = a := by
  rw [← UInt8.toNat_inj, ← Char.toNat_inj]
  rcases h with h | h <;> omega

end

theorem head?_bytes_eq_iff {cs : List Char} {x : UInt8} {a : Char} (hx : x.toNat = a.toNat)
    (narrow : a.toNat ≤ 127) : (bytes cs).head? = some x ↔ cs.head? = some a := by
  cases cs with
  | nil => simp [bytes]
  | cons c cs =>
    obtain ⟨b, bs, hb, lead, -⟩ := utf8EncodeChar_eq_cons c
    rw [bytes, List.flatMap_cons, hb, List.cons_append, List.head?_cons, List.head?_cons,
      Option.some_inj, Option.some_inj, lead.eq_iff hx narrow]

end Text

end MailComposer
