import Mathlib.Data.List.DropRight
import MailComposer.Proofs.Json.Depth
import MailComposer.Proofs.Json.Lexemes
import MailComposer.Proofs.Json.Spelling

/-!
A text that spells a value is read as that value. The fuel that a spelling needs is the number of
its characters.
-/
namespace MailComposer.Json
open Lexeme

private theorem skipSpace_blanks {bs : List Char} (hb : Blanks bs) (cs : List Char) :
    skipSpace (bs ++ cs) = skipSpace cs :=
  List.dropWhile_append_of_pos hb

private theorem skipSpace_cons {c : Char} (h : isSpace c = false) (cs : List Char) :
    skipSpace (c :: cs) = c :: cs :=
  List.dropWhile_cons_of_neg (by rw [h]; decide)

private theorem skipSpace_idem (cs : List Char) : skipSpace (skipSpace cs) = skipSpace cs :=
  List.dropWhile_idempotent isSpace cs

private theorem readValue_skipSpace (fuel : Nat) (cs : List Char) :
    readValue fuel (skipSpace cs) = readValue fuel cs := by
  cases fuel with
  | zero => rfl
  | succ fuel => rw [readValue, readValue, skipSpace_idem]

private theorem readValue_blanks {bs : List Char} (hb : Blanks bs) (fuel : Nat) (cs : List Char) :
    readValue fuel (bs ++ cs) = readValue fuel cs := by
  rw [← readValue_skipSpace, skipSpace_blanks hb, readValue_skipSpace]

private theorem readItems_skipSpace (fuel : Nat) (cs : List Char) :
    readItems fuel (skipSpace cs) = readItems fuel cs := by
  cases fuel with
  | zero => rfl
  | succ fuel => rw [readItems, readItems, readValue_skipSpace]

private theorem readMembers_skipSpace (fuel : Nat) (cs : List Char) :
    readMembers fuel (skipSpace cs) = readMembers fuel cs := by
  cases fuel with
  | zero => rfl
  | succ fuel => rw [readMembers, readMembers, skipSpace_idem]

private theorem delimited_sign {c : Char} (hc : c ∈ [',', ']', '\x7d']) (rest : List Char) :
    Delimited (c :: rest) := by
  rintro d ⟨⟩
  simp only [List.mem_cons, List.not_mem_nil, or_false] at hc
  rcases hc with rfl | rfl | rfl <;> decide

private theorem delimited_blanks {bs : List Char} (hb : Blanks bs) {rest : List Char}
    (hr : Delimited rest) : Delimited (bs ++ rest) := by
  intro c hc
  cases bs with
  | nil => exact hr c hc
  | cons b bs =>
    cases hc
    have h := hb c List.mem_cons_self
    simp only [isSpace, Bool.or_eq_true, beq_iff_eq] at h
    rcases h with ((rfl | rfl) | rfl) | rfl <;> decide

/-- What a value can begin with. -/
theorem Spells.head {j : Json} {cs : List Char} (h : Spells j cs) :
    ∃ c r, cs = c :: r ∧ isSpace c = false ∧ c ≠ ']' := by
  cases h with
  | null => exact ⟨_, _, rfl, rfl, by decide⟩
  | bool b => cases b <;> exact ⟨_, _, rfl, rfl, by decide⟩
  | @nat n _ =>
    obtain ⟨c, r, hc⟩ := List.exists_cons_of_ne_nil (digits_ne_nil n)
    have hd : Digits.isDigit c = true := isDigit_of_mem_digits (n := n) (hc ▸ List.mem_cons_self)
    refine ⟨c, r, hc, ?_, ?_⟩
    · rw [← Bool.not_eq_true]
      intro hs
      simp only [isSpace, Bool.or_eq_true, beq_iff_eq] at hs
      rcases hs with ((rfl | rfl) | rfl) | rfl <;> exact absurd hd (by decide)
    · rintro rfl
      exact absurd hd (by decide)
  | string s => exact ⟨_, _, rfl, rfl, by decide⟩
  | noItems _ | items _ | noMembers _ | members _ => exact ⟨_, _, rfl, rfl, by decide⟩

theorem Spells.skipSpace {j : Json} {cs : List Char} (h : Spells j cs) (rest : List Char) :
    ∃ c r, cs ++ rest = c :: r ∧ Lexeme.skipSpace (cs ++ rest) = c :: r ∧ c ≠ ']' := by
  obtain ⟨c, r, rfl, hs, hc⟩ := h.head
  exact ⟨c, r ++ rest, rfl, skipSpace_cons hs _, hc⟩

theorem SpellsItems.skipSpace {items : List Json} {cs : List Char} (h : SpellsItems items cs)
    (rest : List Char) : ∃ c r, Lexeme.skipSpace (cs ++ rest) = c :: r ∧ c ≠ ']' := by
  cases h with
  | last hb h _ | cons hb h _ _ =>
    rw [List.append_assoc, skipSpace_blanks hb, List.append_assoc]
    obtain ⟨c, r, -, hs, hc⟩ := h.skipSpace _
    exact ⟨c, r, hs, hc⟩

theorem SpellsMembers.skipSpace {members : List (String × Json)} {cs : List Char}
    (h : SpellsMembers members cs) (rest : List Char) :
    ∃ r, Lexeme.skipSpace (cs ++ rest) = '"' :: r := by
  cases h with
  | last hb _ _ h _ | cons hb _ _ h _ _ =>
    rw [List.append_assoc, skipSpace_blanks hb, List.append_assoc]
    exact ⟨_, skipSpace_cons rfl _⟩

private theorem readValue_quoted (fuel : Nat) (s : String) (rest : List Char) :
    readValue (fuel + 1) (quoted s ++ rest) = (.string s, some rest) := by
  rw [quoted, List.cons_append, List.append_assoc, List.singleton_append, readValue,
    skipSpace_cons rfl]
  simp only [if_pos, stringBody_quoted, Option.elim_some]

private theorem readValue_digits (fuel : Nat) {n : Nat} (h : n < UInt64.size) {rest : List Char}
    (hr : Delimited rest) :
    readValue (fuel + 1) ((toString n).toList ++ rest) = (.number (.whole n), some rest) := by
  obtain ⟨c, r, hc, hs, -⟩ := (Spells.nat h).head
  have hd : Digits.isDigit c = true := isDigit_of_mem_digits (n := n) (hc ▸ List.mem_cons_self)
  have other : c ∉ ['"', '[', '\x7b', 'n', 't', 'f'] := by
    intro hm
    have none : ['"', '[', '\x7b', 'n', 't', 'f'].any Digits.isDigit = false := by decide
    exact List.any_eq_false.mp none c hm hd
  simp only [List.mem_cons, List.not_mem_nil, or_false, not_or] at other
  have hn := number_digits h hr
  rw [hc, List.cons_append] at hn ⊢
  rw [readValue, skipSpace_cons hs]
  simp only [other, if_false, hd, or_true, if_true, hn]

private theorem readValue_noItems (fuel : Nat) {bs : List Char} (hb : Blanks bs)
    (rest : List Char) :
    readValue (fuel + 1) ('[' :: (bs ++ ']' :: rest)) = (.array [] none, some rest) := by
  rw [readValue, skipSpace_cons rfl]
  simp only [skipSpace_blanks hb, skipSpace_cons (c := ']') rfl]
  rfl

private theorem readValue_items (fuel : Nat) {items : List Json} {cs : List Char}
    (h : SpellsItems items cs) (rest : List Char) {parts : List Reading}
    (hi : readItems fuel (cs ++ rest) = ⟨parts, none, some rest⟩) :
    readValue (fuel + 1) ('[' :: (cs ++ rest)) = (.array parts none, some rest) := by
  obtain ⟨c, r, hs, hc⟩ := h.skipSpace rest
  rw [← readItems_skipSpace, hs] at hi
  rw [readValue, skipSpace_cons rfl]
  simp only [Char.reduceEq, if_false, if_true, hs]
  split
  · next e => cases e
  · next e =>
    cases e
    exact absurd rfl hc
  · rw [hi]

private theorem readValue_noMembers (fuel : Nat) {bs : List Char} (hb : Blanks bs)
    (rest : List Char) :
    readValue (fuel + 1) ('\x7b' :: (bs ++ '\x7d' :: rest)) = (.object [] none, some rest) := by
  rw [readValue, skipSpace_cons rfl]
  simp only [skipSpace_blanks hb, skipSpace_cons (c := '\x7d') rfl]
  rfl

private theorem readValue_members (fuel : Nat) {members : List (String × Json)} {cs : List Char}
    (h : SpellsMembers members cs) (rest : List Char) {parts : List (Option String × Reading)}
    (hm : readMembers fuel (cs ++ rest) = ⟨parts, none, some rest⟩) :
    readValue (fuel + 1) ('\x7b' :: (cs ++ rest)) = (.object parts none, some rest) := by
  obtain ⟨r, hs⟩ := h.skipSpace rest
  rw [← readMembers_skipSpace, hs] at hm
  rw [readValue, skipSpace_cons rfl]
  simp only [Char.reduceEq, if_false, if_true, hs]
  change (Reading.object (readMembers fuel ('"' :: r)).parts _, _) = _
  rw [hm]

private theorem readItems_last {fuel : Nat} {cs rest : List Char} {v : Reading} {bs : List Char}
    (hb : Blanks bs) (hv : readValue fuel cs = (v, some (bs ++ ']' :: rest))) :
    readItems (fuel + 1) cs = ⟨[v], none, some rest⟩ := by
  rw [readItems, hv]
  simp only [skipSpace_blanks hb, skipSpace_cons (c := ']') rfl]

private theorem readItems_cons {fuel : Nat} {cs rest : List Char} {v : Reading} {bs : List Char}
    (hb : Blanks bs) (hv : readValue fuel cs = (v, some (bs ++ ',' :: rest))) :
    readItems (fuel + 1) cs = (readItems fuel rest).cons v := by
  rw [readItems, hv]
  simp only [skipSpace_blanks hb, skipSpace_cons (c := ',') rfl]

private theorem readMembers_last {fuel : Nat} {bs ks bs' : List Char} (hb : Blanks bs)
    (hk : Blanks ks) (hb' : Blanks bs') (k : String) {r rest : List Char} {v : Reading}
    (hv : readValue fuel r = (v, some (bs' ++ '\x7d' :: rest))) :
    readMembers (fuel + 1) (bs ++ (quoted k ++ (ks ++ ':' :: r))) =
      ⟨[(some k, v)], none, some rest⟩ := by
  rw [readMembers, skipSpace_blanks hb, quoted, List.cons_append, skipSpace_cons rfl,
    List.append_assoc, List.singleton_append]
  simp only [stringBody_quoted, skipSpace_blanks hk, skipSpace_cons (c := ':') rfl, hv,
    skipSpace_blanks hb', skipSpace_cons (c := '\x7d') rfl]

private theorem readMembers_cons {fuel : Nat} {bs ks bs' : List Char} (hb : Blanks bs)
    (hk : Blanks ks) (hb' : Blanks bs') (k : String) {r rest : List Char} {v : Reading}
    (hv : readValue fuel r = (v, some (bs' ++ ',' :: rest))) :
    readMembers (fuel + 1) (bs ++ (quoted k ++ (ks ++ ':' :: r))) =
      (readMembers fuel rest).cons (some k, v) := by
  rw [readMembers, skipSpace_blanks hb, quoted, List.cons_append, skipSpace_cons rfl,
    List.append_assoc, List.singleton_append]
  simp only [stringBody_quoted, skipSpace_blanks hk, skipSpace_cons (c := ':') rfl, hv,
    skipSpace_blanks hb', skipSpace_cons (c := ',') rfl]

mutual

private theorem readValue_spells {j : Json} {cs : List Char} (h : Spells j cs) (fuel : Nat)
    (rest : List Char) (hf : cs.length ≤ fuel) (hr : Delimited rest) :
    readValue fuel (cs ++ rest) = (Reading.ofJson j, some rest) := by
  obtain ⟨fuel, rfl⟩ : ∃ n, fuel = n + 1 := by
    obtain ⟨c, r, rfl, -⟩ := h.head
    exact ⟨fuel - 1, by rw [List.length_cons] at hf; omega⟩
  match h with
  | .null => rfl
  | .bool b => cases b <;> rfl
  | .nat hn => exact readValue_digits fuel hn hr
  | .string s => exact readValue_quoted fuel s rest
  | .noItems hb =>
    rw [List.cons_append, List.append_assoc]
    exact readValue_noItems fuel hb rest
  | .items h =>
    have hi := readItems_spells h fuel rest (Nat.le_of_succ_le_succ hf)
    exact readValue_items fuel h rest hi
  | .noMembers hb =>
    rw [List.cons_append, List.append_assoc]
    exact readValue_noMembers fuel hb rest
  | .members h =>
    have hm := readMembers_spells h fuel rest (Nat.le_of_succ_le_succ hf)
    exact readValue_members fuel h rest hm

private theorem readItems_spells {items : List Json} {cs : List Char} (h : SpellsItems items cs)
    (fuel : Nat) (rest : List Char) (hf : cs.length ≤ fuel) :
    readItems fuel (cs ++ rest) = ⟨Reading.ofItems items, none, some rest⟩ := by
  obtain ⟨fuel, rfl⟩ : ∃ n, fuel = n + 1 := by
    cases h <;> simp only [List.length_append, List.length_cons] at hf <;>
      exact ⟨fuel - 1, by omega⟩
  match h with
  | @SpellsItems.last j bs cs bs' hb h hb' =>
    simp only [List.length_append, List.length_cons] at hf
    have hv := readValue_spells h fuel (bs' ++ ']' :: rest) (by omega)
      (delimited_blanks hb' (delimited_sign (by decide) rest))
    simp only [List.append_assoc, List.singleton_append]
    exact readItems_last hb' ((readValue_blanks hb fuel _).trans hv)
  | @SpellsItems.cons j items bs cs bs' ds hb h hb' hs =>
    simp only [List.length_append, List.length_cons] at hf
    have hv := readValue_spells h fuel (bs' ++ ',' :: (ds ++ rest)) (by omega)
      (delimited_blanks hb' (delimited_sign (by decide) _))
    simp only [List.append_assoc, List.cons_append]
    rw [readItems_cons hb' ((readValue_blanks hb fuel _).trans hv),
      readItems_spells hs fuel rest (by omega)]
    rfl

private theorem readMembers_spells {members : List (String × Json)} {cs : List Char}
    (h : SpellsMembers members cs) (fuel : Nat) (rest : List Char) (hf : cs.length ≤ fuel) :
    readMembers fuel (cs ++ rest) = ⟨Reading.ofMembers members, none, some rest⟩ := by
  obtain ⟨fuel, rfl⟩ : ∃ n, fuel = n + 1 := by
    cases h <;> simp only [List.length_append, List.length_cons] at hf <;>
      exact ⟨fuel - 1, by omega⟩
  match h with
  | @SpellsMembers.last k j bs cs ks ks' bs' hb hk hk' h hb' =>
    simp only [List.length_append, List.length_cons] at hf
    have hv := readValue_spells h fuel (bs' ++ '\x7d' :: rest) (by omega)
      (delimited_blanks hb' (delimited_sign (by decide) rest))
    simp only [List.append_assoc, List.cons_append, List.nil_append]
    exact readMembers_last hb hk hb' k ((readValue_blanks hk' fuel _).trans hv)
  | @SpellsMembers.cons k j members bs cs ks ks' bs' ds hb hk hk' h hb' hs =>
    simp only [List.length_append, List.length_cons] at hf
    have hv := readValue_spells h fuel (bs' ++ ',' :: (ds ++ rest)) (by omega)
      (delimited_blanks hb' (delimited_sign (by decide) _))
    simp only [List.append_assoc, List.cons_append]
    rw [readMembers_cons hb hk hb' k ((readValue_blanks hk' fuel _).trans hv),
      readMembers_spells hs fuel rest (by omega)]
    rfl

end

/-- A spelling with blanks around it is read as the value, and nothing is left over. -/
theorem Document.ofChars_spells {j : Json} {bs cs bs' : List Char} (hb : Blanks bs)
    (h : Spells j cs) (hb' : Blanks bs') :
    Document.ofChars (bs ++ (cs ++ bs')) = ⟨Reading.ofJson j, .ok ()⟩ := by
  have hr : Delimited bs' := List.append_nil bs' ▸ delimited_blanks hb' .nil
  have hv := readValue_spells h (2 * (bs ++ (cs ++ bs')).length + 2) bs'
    (by simp only [List.length_append]; omega) hr
  have hn : Lexeme.skipSpace bs' = [] := List.dropWhile_eq_nil_iff.mpr hb'
  rw [Document.ofChars, readValue_blanks hb, hv]
  simp only [hn, List.isEmpty_nil, if_true]

theorem Document.ofText_spells {j : Json} {cs : List Char} (h : Spells j cs) :
    Document.ofText (String.ofList cs) = ⟨Reading.ofJson j, .ok ()⟩ := by
  have hc := Document.ofChars_spells .nil h .nil
  rw [List.append_nil, List.nil_append] at hc
  rw [Document.ofText, String.toList_ofList, hc]

theorem Document.ofText_compact {j : Json} (h : j.Plain) :
    Document.ofText j.compact = ⟨Reading.ofJson j, .ok ()⟩ :=
  Document.ofText_spells (spells_compact j h)

theorem Document.ofText_pretty {j : Json} (h : j.Plain) :
    Document.ofText j.pretty = ⟨Reading.ofJson j, .ok ()⟩ :=
  Document.ofText_spells (spells_pretty 0 j h)

/-- Fits into a text that may open `d` levels. -/
def Shallow (d : Nat) (j : Json) : Prop := j.Plain ∧ j.depth ≤ d

def ShallowMembers (d : Nat) (ms : List (String × Json)) : Prop :=
  PlainMembers ms ∧ depthMembers ms ≤ d

section
variable {d : Nat} {j : Json} {ms ns : List (String × Json)}

theorem Shallow.mono {e : Nat} (h : j.Shallow d) (hd : d ≤ e) : j.Shallow e :=
  ⟨h.1, Nat.le_trans h.2 hd⟩

theorem Shallow.object (h : ShallowMembers d ms) : (Json.object ms).Shallow (d + 1) :=
  ⟨h.1, Nat.succ_le_succ h.2⟩

theorem ShallowMembers.nil : ShallowMembers d [] := ⟨trivial, Nat.zero_le d⟩

theorem ShallowMembers.cons (hj : j.Shallow d) (h : ShallowMembers d ms) (k : String) :
    ShallowMembers d ((k, j) :: ms) :=
  ⟨⟨hj.1, h.1⟩, Nat.max_le.mpr ⟨hj.2, h.2⟩⟩

theorem ShallowMembers.append (hm : ShallowMembers d ms) (hn : ShallowMembers d ns) :
    ShallowMembers d (ms ++ ns) := by
  induction ms with
  | nil => exact hn
  | cons e ms ih =>
    have he := Nat.max_le.mp hm.2
    exact .cons ⟨hm.1.1, he.1⟩ (ih ⟨hm.1.2, he.2⟩) e.1

theorem shallow_memberOf {α : Type} (k : String) {encode : α → Json} (v : Option α)
    (h : ∀ a, (encode a).Shallow d) : ShallowMembers d (memberOf k encode v) := by
  cases v with
  | none => exact .nil
  | some a => exact .cons (h a) .nil k

theorem shallow_string (s : String) : (Json.string s).Shallow d := ⟨trivial, Nat.zero_le d⟩

theorem shallow_index (i : UInt64) : (Json.index i).Shallow d := ⟨i.toNat_lt, Nat.zero_le d⟩

theorem shallow_texts (xs : List String) : (Json.texts xs).Shallow 1 :=
  ⟨plain_texts xs, Nat.succ_le_succ (Nat.le_of_eq (depthItems_strings xs))⟩

end

/-- A decoder that takes a value back takes back either of its texts. -/
theorem decodeText_eq_ok {α : Type} {read : Medium → Reading → Decoded α} {j : Json} {a : α}
    {s : String} (hj : j.Shallow nestingLimit) (hs : s = j.compact ∨ s = j.pretty)
    (h : read (.text nestingLimit) (.ofJson j) = (Medium.text nestingLimit).within j.depth a) :
    decodeText read s = .ok a := by
  have hd : Document.ofText s = ⟨.ofJson j, .ok ()⟩ := by
    rcases hs with rfl | rfl
    · exact Document.ofText_compact hj.1
    · exact Document.ofText_pretty hj.1
  have hw : (Medium.text nestingLimit).within j.depth a = .ok a :=
    Medium.within_eq_ok.mpr ⟨hj.2, rfl⟩
  rw [decodeText, hd, Document.decode, h, hw]
  rfl

end MailComposer.Json
