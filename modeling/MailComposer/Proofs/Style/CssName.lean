import MailComposer.Proofs.Style.Values
import MailComposer.Proofs.Text.Ascii
import MailComposer.Style.CssName

/-!
Keys with the same name in CSS. A capital and a hyphen before the small letter come out alike, so
that a name does not tell the key; for the alignment of texts all keys with its name are listed.
Among the keys of the vocabulary a name belongs to one.
-/
namespace MailComposer

private theorem flatMap_hyphenated_eq_nil {cs : List Char} (h : cs.flatMap hyphenated = []) :
    cs = [] := by
  cases cs with
  | nil => rfl
  | cons c cs =>
    rw [List.flatMap_cons, hyphenated] at h
    split at h <;> cases h

/-- A hyphen comes from itself or from a capital, any other character from itself alone. -/
private theorem flatMap_hyphenated_eq_cons {cs xs : List Char} {x : Char}
    (h : cs.flatMap hyphenated = x :: xs) :
    (∃ rest, cs = x :: rest ∧ rest.flatMap hyphenated = xs) ∨
      x = '-' ∧ ∃ c rest, cs = c :: rest ∧ c.isUpper = true ∧
        c.toLower :: rest.flatMap hyphenated = xs := by
  cases cs with
  | nil => cases h
  | cons c rest =>
    rw [List.flatMap_cons, hyphenated] at h
    split at h
    · next hu =>
      obtain ⟨rfl, hxs⟩ := List.cons.inj h
      exact .inr ⟨rfl, c, rest, rfl, hu, hxs⟩
    · obtain ⟨rfl, hxs⟩ := List.cons.inj h
      exact .inl ⟨rest, rfl, hxs⟩

private theorem flatMap_hyphenated_eq_append {cs word xs : List Char} (hw : '-' ∉ word)
    (h : cs.flatMap hyphenated = word ++ xs) :
    ∃ rest, cs = word ++ rest ∧ rest.flatMap hyphenated = xs := by
  induction word generalizing cs with
  | nil => exact ⟨cs, rfl, h⟩
  | cons x word ih =>
    obtain ⟨hx, hword⟩ := not_or.mp (mt List.mem_cons.mpr hw)
    rcases flatMap_hyphenated_eq_cons h with ⟨tail, rfl, ht⟩ | ⟨hhyphen, -⟩
    · obtain ⟨rest, rfl, hrest⟩ := ih hword ht
      exact ⟨rest, rfl, hrest⟩
    · exact absurd hhyphen.symm hx

private theorem eq_of_flatMap_hyphenated {cs word : List Char} (hw : '-' ∉ word)
    (h : cs.flatMap hyphenated = word) : cs = word := by
  rw [← List.append_nil word] at h
  obtain ⟨rest, rfl, hrest⟩ := flatMap_hyphenated_eq_append hw h
  rw [flatMap_hyphenated_eq_nil hrest, List.append_nil]

/-- Keys without hyphens keep what tells them apart. -/
theorem flatMap_hyphenated_injective {cs ds : List Char} (hc : '-' ∉ cs) (hd : '-' ∉ ds)
    (h : cs.flatMap hyphenated = ds.flatMap hyphenated) : cs = ds := by
  induction cs generalizing ds with
  | nil => exact (flatMap_hyphenated_eq_nil h.symm).symm
  | cons c cs ih =>
    obtain ⟨hc1, hcs⟩ := not_or.mp (mt List.mem_cons.mpr hc)
    rw [List.flatMap_cons, hyphenated] at h
    split at h
    · next hu =>
      rcases flatMap_hyphenated_eq_cons h.symm with ⟨rest, rfl, -⟩ | ⟨-, d, rest, rfl, hud, hrest⟩
      · exact absurd List.mem_cons_self hd
      · obtain ⟨hlower, hrest⟩ := List.cons.inj hrest
        have hrest' : '-' ∉ rest := fun hm => hd (List.mem_cons_of_mem d hm)
        rw [capital_of_toLower hud hlower, ← capital_of_toLower hu rfl, ih hcs hrest' hrest.symm]
    · rcases flatMap_hyphenated_eq_cons h.symm with ⟨rest, rfl, hrest⟩ | ⟨hhyphen, -⟩
      · have hrest' : '-' ∉ rest := fun hm => hd (List.mem_cons_of_mem c hm)
        rw [ih hcs hrest' hrest.symm]
      · exact absurd hhyphen.symm hc1

/-- Keys of the vocabulary begin with a small letter and hold no hyphen. -/
private theorem Property.key_eq_cons (p : Property) :
    ∃ c cs, p.key.toList = c :: cs ∧ c.toLower = c ∧ '-' ∉ cs := by
  cases p <;> exact ⟨_, _, rfl, by decide, by decide⟩

theorem Property.cssName_injective {p q : Property} (h : p.cssName = q.cssName) : p = q := by
  obtain ⟨c, cs, hp, hc, hcs⟩ := p.key_eq_cons
  obtain ⟨d, ds, hq, hd, hds⟩ := q.key_eq_cons
  have hchars := congrArg String.toList h
  simp only [Property.cssName, MailComposer.cssName, String.toList_ofList, hp, hq, cssChars,
    hc, hd, List.cons.injEq] at hchars
  obtain ⟨rfl, hrest⟩ := hchars
  obtain rfl := flatMap_hyphenated_injective hcs hds hrest
  exact Property.key_injective p q (String.toList_inj.mp (hp.trans hq.symm))

theorem Property.not_margin_cssName {p : Property} (h : p.isMargin = false) :
    ¬ "margin".toList <+: p.cssName.toList := by
  revert h
  cases p <;> decide

/-- The keys outside the vocabulary that stand for an alignment in CSS. -/
def alignmentKeys : List String := ["text-align", "Text-align", "TextAlign"]

private theorem cssChars_eq_textAlign {cs : List Char}
    (h : cssChars cs = ['t', 'e', 'x', 't', '-', 'a', 'l', 'i', 'g', 'n']) :
    ∃ first ∈ ['t', 'T'], ∃ second ∈ [['-', 'a'], ['A']],
      cs = first :: ['e', 'x', 't'] ++ second ++ ['l', 'i', 'g', 'n'] := by
  cases cs with
  | nil => cases h
  | cons c cs =>
    obtain ⟨hc, hcs⟩ := List.cons.inj h
    have hfirst : c ∈ ['t', 'T'] := by
      rcases eq_or_capital_of_toLower hc with rfl | rfl
      · decide
      · decide
    have hword : cs.flatMap hyphenated = ['e', 'x', 't'] ++ ['-', 'a', 'l', 'i', 'g', 'n'] := hcs
    obtain ⟨tail, rfl, htail⟩ := flatMap_hyphenated_eq_append (by decide) hword
    refine ⟨c, hfirst, ?_⟩
    rcases flatMap_hyphenated_eq_cons htail with ⟨rest, rfl, hrest⟩ | ⟨-, d, rest, rfl, hu, hrest⟩
    · obtain rfl := eq_of_flatMap_hyphenated (by decide) hrest
      exact ⟨['-', 'a'], by decide, rfl⟩
    · obtain ⟨hd, hlast⟩ := List.cons.inj hrest
      obtain rfl := capital_of_toLower hu hd
      obtain rfl := eq_of_flatMap_hyphenated (by decide) hlast
      exact ⟨['A'], by decide, rfl⟩

theorem cssName_eq_textAlign {key : String} :
    cssName key = "text-align" ↔ key = Property.textAlign.key ∨ key ∈ alignmentKeys := by
  constructor
  · intro h
    have hchars : cssChars key.toList = ['t', 'e', 'x', 't', '-', 'a', 'l', 'i', 'g', 'n'] := by
      have hlist := congrArg String.toList h
      rw [cssName, String.toList_ofList] at hlist
      exact hlist
    obtain ⟨first, hfirst, second, hsecond, hkey⟩ := cssChars_eq_textAlign hchars
    obtain rfl : key = String.ofList _ :=
      String.ofList_toList.symm.trans (congrArg String.ofList hkey)
    simp only [List.mem_cons, List.not_mem_nil, or_false] at hfirst hsecond
    rcases hfirst with rfl | rfl <;> rcases hsecond with rfl | rfl <;> decide
  · rintro (rfl | h)
    · rfl
    · have all : ∀ key ∈ alignmentKeys, cssName key = "text-align" := by decide
      exact all key h

theorem property_eq_textAlign {p : Property}
    (h : p.key = Property.textAlign.key ∨ p.key ∈ alignmentKeys) : p = .textAlign := by
  have foreign : ∀ key ∈ alignmentKeys, Property.ofKey? key = none := by decide
  rcases h with h | h
  · exact Property.key_injective _ _ h
  · have hnone := foreign p.key h
    rw [Property.ofKey?_key] at hnone
    cases hnone

end MailComposer
