import MailComposer.Proofs.Html.Entities
import MailComposer.Proofs.Html.Spans
import MailComposer.Proofs.Json.Lexemes
import MailComposer.Proofs.Style.CssName

/-!
Data that cannot be taken for markup: none of the signs that open or close a tag or an attribute is
in it. Escaped texts, numbers and the names of the vocabulary are so, other names as they come.
-/
namespace MailComposer.Html

/-- The signs that open or close a tag or an attribute. -/
def isSign (c : Char) : Bool := c == '<' || c == '>' || c == '"'

/-- Holds no sign that could open or close a tag or an attribute. -/
def Inert (s : String) : Prop := ∀ c ∈ s.toList, isSign c = false

private theorem inert_iff_any (s : String) : Inert s ↔ s.toList.any isSign = false := by
  simp only [Inert, List.any_eq_false, Bool.not_eq_true]

instance (s : String) : Decidable (Inert s) := decidable_of_iff _ (inert_iff_any s).symm

theorem inert_append {s t : String} : Inert (s ++ t) ↔ Inert s ∧ Inert t := by
  simp only [Inert, String.toList_append, List.mem_append]
  constructor
  · intro h
    exact ⟨fun c hc => h c (.inl hc), fun c hc => h c (.inr hc)⟩
  · rintro ⟨hs, ht⟩ c (hc | hc)
    · exact hs c hc
    · exact ht c hc

theorem inert_escape (s : String) : Inert (escape s) := by
  intro c hc
  rw [escape, String.toList_ofList] at hc
  have clean := not_sign_of_mem_escapeChars hc
  rw [← Bool.not_eq_true, isSign, Bool.or_eq_true, Bool.or_eq_true, beq_iff_eq, beq_iff_eq,
    beq_iff_eq]
  rintro ((rfl | rfl) | rfl) <;> exact absurd (by decide) clean

theorem inert_digits (n : Nat) : Inert (toString n) := by
  intro c hc
  have hd := Json.Lexeme.isDigit_of_mem_digits hc
  rw [← Bool.not_eq_true, isSign, Bool.or_eq_true, Bool.or_eq_true, beq_iff_eq, beq_iff_eq,
    beq_iff_eq]
  rintro ((rfl | rfl) | rfl) <;> exact absurd hd (by decide)

private theorem inert_display (x : Binary64) : Inert x.display := by
  have places (h : Nat) : Inert (Binary64.places h) := by
    unfold Binary64.places
    split
    · decide
    · split
      · exact inert_append.mpr ⟨by decide, inert_digits _⟩
      · exact inert_append.mpr ⟨inert_append.mpr ⟨by decide, inert_digits _⟩, inert_digits _⟩
  unfold Binary64.display
  dsimp only
  split
  · decide
  · refine inert_append.mpr ⟨inert_append.mpr ⟨?_, inert_digits _⟩, places _⟩
    split <;> decide

private theorem inert_key (p : Property) : Inert p.key := by
  cases p <;> decide

private theorem isSign_toLower (c : Char) : isSign c.toLower = isSign c :=
  of_toLower (p := fun c d => isSign d = isSign c) (by decide) (fun _ _ => rfl) c

/-- Turning a key into its CSS name neither hides a sign nor makes one. -/
theorem inert_cssName {key : String} : Inert (cssName key) ↔ Inert key := by
  have letter (c : Char) : (∀ d ∈ hyphenated c, isSign d = false) ↔ isSign c = false := by
    unfold hyphenated
    split
    · rw [List.forall_mem_cons, List.forall_mem_singleton, isSign_toLower]
      exact and_iff_right rfl
    · exact List.forall_mem_singleton
  have hyphen (cs : List Char) : (∀ d ∈ cs.flatMap hyphenated, isSign d = false) ↔
      ∀ c ∈ cs, isSign c = false := by
    induction cs with
    | nil => exact Iff.rfl
    | cons c cs ih =>
      rw [List.flatMap_cons, List.forall_mem_append, List.forall_mem_cons, letter, ih]
  unfold Inert cssName
  rw [String.toList_ofList]
  cases key.toList with
  | nil => rfl
  | cons c cs => simp only [cssChars, List.forall_mem_cons, hyphen, isSign_toLower]

theorem inert_width (m : Measure) :
    Inert (if m.unit = "%" then m.text else m.magnitude.display) := by
  split
  · next hu =>
    rw [Measure.text, hu]
    exact inert_append.mpr ⟨inert_display _, by decide⟩
  · exact inert_display _

/-- All data among the pieces is inert. -/
def Clean (ss : List Span) : Prop := ∀ s ∈ ss, s.isData = true → Inert s.text

section

variable {ss ts : List Span} {t : String}

@[simp] theorem clean_nil : Clean [] := fun _ h => nomatch h

@[simp] theorem clean_append : Clean (ss ++ ts) ↔ Clean ss ∧ Clean ts := List.forall_mem_append

private theorem clean_cons {s : Span} :
    Clean (s :: ss) ↔ (s.isData = true → Inert s.text) ∧ Clean ss :=
  List.forall_mem_cons

@[simp] theorem clean_markup {m : Markup} : Clean (.markup m :: ss) ↔ Clean ss :=
  clean_cons.trans (and_iff_right nofun)

@[simp] theorem clean_rich : Clean (.rich t :: ss) ↔ Clean ss :=
  clean_cons.trans (and_iff_right nofun)

@[simp] theorem clean_escaped : Clean (.escaped t :: ss) ↔ Clean ss :=
  clean_cons.trans (and_iff_right fun _ => inert_escape t)

@[simp] theorem clean_name : Clean (.name t :: ss) ↔ Inert t ∧ Clean ss :=
  clean_cons.trans (and_congr_left' (imp_iff_right rfl))

@[simp] theorem clean_figure : Clean (.figure t :: ss) ↔ Inert t ∧ Clean ss :=
  clean_cons.trans (and_congr_left' (imp_iff_right rfl))

end

theorem clean_separated (ds : List (String × String)) :
    Clean (separated ds) ↔ ∀ d ∈ ds, Inert d.1 := by
  induction ds with
  | nil => simp [separated]
  | cons d ds ih =>
    rw [List.forall_mem_cons, ← ih]
    cases ds with
    | nil => simp [separated, declarationSpans]
    | cons e ds => simp [separated, declarationSpans]

/-- Values are escaped, so that it is the names that matter. -/
private theorem clean_styledSpans (ds : List (String × String)) :
    Clean (styledSpans ds) ↔ ∀ d ∈ ds, isEmitted d.2 = true → Inert d.1 := by
  have filtered : (∀ d ∈ ds.filter fun d => isEmitted d.2, Inert d.1) ↔
      ∀ d ∈ ds, isEmitted d.2 = true → Inert d.1 := by
    simp only [List.mem_filter, and_imp]
  rw [← filtered]
  unfold styledSpans
  cases ds.filter fun d => isEmitted d.2 with
  | nil => simp
  | cons d ds => rw [clean_markup, clean_append, clean_separated]; simp

/-- Declarations under names of the compiler's own. -/
theorem clean_named (names : List String) (hn : ∀ n ∈ names, Inert n)
    {ds : List (String × String)} (hd : ds.map Prod.fst = names) : Clean (styledSpans ds) :=
  (clean_styledSpans ds).mpr fun d hm _ => hn d.1 (hd ▸ List.mem_map_of_mem hm)

theorem clean_widthSpans (p : UnitPolicy) (value : String) : Clean (widthSpans p value) := by
  unfold widthSpans
  split
  · exact clean_nil
  · next m _ => simp [inert_width m]

@[simp] theorem clean_tagSpans {before after : List Span} {ds : List (String × String)} :
    Clean (tagSpans before ds after) ↔ Clean before ∧ Clean (styledSpans ds) ∧ Clean after := by
  rw [tagSpans, clean_append, clean_append]

/-- The names of its styles that are written out are inert, as those of the vocabulary are. -/
def InertExtras (s : StyleMap) : Prop :=
  ∀ e ∈ s.extras.entries, isEmitted e.2 = true → Inert e.1

theorem inertExtras_congr {s s' : StyleMap} (h : s.extras = s'.extras) :
    InertExtras s ↔ InertExtras s' := by
  rw [InertExtras, InertExtras, h]

theorem clean_declarations (s : StyleMap) :
    Clean (styledSpans s.declarations) ↔ InertExtras s := by
  rw [clean_styledSpans, StyleMap.declarations, StyleMap.entries]
  constructor
  · intro h e he hv
    have hd := h (cssName e.1, e.2)
      (List.mem_map.mpr ⟨e, List.mem_append_right _ he, rfl⟩) hv
    exact inert_cssName.mp hd
  · intro h d hd hv
    obtain ⟨e, he, rfl⟩ := List.mem_map.mp hd
    refine inert_cssName.mpr ?_
    rcases List.mem_append.mp he with hk | hx
    · obtain ⟨k, -, rfl⟩ := List.mem_map.mp hk
      exact inert_key k.1
    · exact h e hx hv

end MailComposer.Html
