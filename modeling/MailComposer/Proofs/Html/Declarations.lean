import MailComposer.Proofs.Html.Entities
import MailComposer.Proofs.Html.Spans

/-!
Reading a style attribute. What is written are the declarations that say something, with their
values trimmed. Main statement: where no name and no value holds the marks between them, taking back
the escapes and then cutting at the marks gives just these declarations.
-/
namespace MailComposer.Html

/-- The declarations that say something, with the values that are written for them. -/
def shown (ds : List (String × String)) : List (String × String) :=
  (ds.filter fun d => Text.trim d.2 ∉ ["", "transparent", "undefined"]).map
    fun d => (d.1, Text.trim d.2)

theorem isEmitted_iff {value : String} :
    isEmitted value = true ↔ Text.trim value ∉ ["", "transparent", "undefined"] := by
  simp [isEmitted, and_assoc]

private theorem shown_eq (ds : List (String × String)) :
    shown ds = (ds.filter fun d => isEmitted d.2).map fun d => (d.1, Text.trim d.2) := by
  refine congrArg (List.map _) (List.filter_congr fun d _ => ?_)
  exact Bool.eq_iff_iff.mpr (decide_eq_true_iff.trans isEmitted_iff.symm)

theorem mem_shown {ds : List (String × String)} {d : String × String} :
    d ∈ shown ds ↔ ∃ value, (d.1, value) ∈ ds ∧ isEmitted value = true ∧ Text.trim value = d.2 := by
  rw [shown_eq, List.mem_map]
  constructor
  · rintro ⟨e, he, rfl⟩
    obtain ⟨hm, hv⟩ := List.mem_filter.mp he
    exact ⟨e.2, hm, hv, rfl⟩
  · rintro ⟨value, hm, hv, ht⟩
    exact ⟨(d.1, value), List.mem_filter.mpr ⟨hm, hv⟩, Prod.ext rfl ht⟩

private theorem styled_eq_empty_iff (ds : List (String × String)) :
    styled ds = "" ↔ ∀ d ∈ ds, Text.trim d.2 ∈ ["", "transparent", "undefined"] := by
  have silent : (ds.filter fun d => isEmitted d.2) = [] ↔
      ∀ d ∈ ds, Text.trim d.2 ∈ ["", "transparent", "undefined"] := by
    simp only [List.filter_eq_nil_iff, isEmitted_iff, not_not]
  rw [← silent, styled, inlineStyle]
  cases ds.filter fun d => isEmitted d.2 with
  | nil => exact iff_of_true rfl rfl
  | cons d ds =>
    rw [styleAttribute, if_neg (intercalate_declaration_ne_empty d ds)]
    simp

/-- The parts of a text between the places where two characters stand in a row. -/
def partsAt (x y : Char) : List Char → List (List Char)
  | [] => [[]]
  | [c] => [[c]]
  | c :: d :: cs =>
    if c = x ∧ d = y then [] :: partsAt x y cs
    else (partsAt x y (d :: cs)).modifyHead (c :: ·)

/-- The texts before and behind the first place where two characters stand in a row. -/
def cutAt? (x y : Char) : List Char → Option (List Char × List Char)
  | c :: d :: cs =>
    if c = x ∧ d = y then some ([], cs)
    else (cutAt? x y (d :: cs)).map fun (before, behind) => (c :: before, behind)
  | _ => none

section
variable {x y c : Char} {cs ds : List Char}

private theorem partsAt_cons (h : c ≠ x) :
    partsAt x y (c :: cs) = (partsAt x y cs).modifyHead (c :: ·) := by
  cases cs with
  | nil => rfl
  | cons d cs => exact if_neg fun hc => h hc.1

private theorem partsAt_whole (h : x ∉ cs) : partsAt x y cs = [cs] := by
  induction cs with
  | nil => rfl
  | cons c cs ih =>
    obtain ⟨hc, hcs⟩ := not_or.mp (mt List.mem_cons.mpr h)
    rw [partsAt_cons (Ne.symm hc), ih hcs]
    rfl

private theorem partsAt_append (h : x ∉ cs) :
    partsAt x y (cs ++ x :: y :: ds) = cs :: partsAt x y ds := by
  induction cs with
  | nil => exact if_pos ⟨rfl, rfl⟩
  | cons c cs ih =>
    obtain ⟨hc, hcs⟩ := not_or.mp (mt List.mem_cons.mpr h)
    rw [List.cons_append, partsAt_cons (Ne.symm hc), ih hcs]
    rfl

private theorem cutAt?_append (h : x ∉ cs) : cutAt? x y (cs ++ x :: y :: ds) = some (cs, ds) := by
  induction cs with
  | nil => exact if_pos ⟨rfl, rfl⟩
  | cons c cs ih =>
    obtain ⟨hc, hcs⟩ := not_or.mp (mt List.mem_cons.mpr h)
    have step : cutAt? x y (c :: (cs ++ x :: y :: ds)) =
        (cutAt? x y (cs ++ x :: y :: ds)).map fun (before, behind) => (c :: before, behind) := by
      cases cs with
      | nil => exact if_neg fun he => hc he.1.symm
      | cons d cs => exact if_neg fun he => hc he.1.symm
    rw [List.cons_append, step, ih hcs]
    rfl

end

def readDeclaration? (cs : List Char) : Option (String × String) :=
  (cutAt? ':' ' ' cs).map fun (name, value) => (String.ofList name, String.ofList value)

/-- The declarations of a style without escapes, if each part has a mark behind its name. -/
def readDeclarations? (s : String) : Option (List (String × String)) :=
  if s = "" then some [] else (partsAt ';' ' ' s.toList).mapM readDeclaration?

/-- A declaration with a value that is trimmed already. -/
def escapedText (d : String × String) : String := d.1 ++ ": " ++ escape d.2

/-- A declaration without escapes. -/
def plainText (d : String × String) : List Char := d.1.toList ++ ':' :: ' ' :: d.2.toList

def joined : List (String × String) → List Char
  | [] => []
  | [d] => plainText d
  | d :: e :: ds => plainText d ++ ';' :: ' ' :: joined (e :: ds)

/-- Neither the name nor the value can be taken for the marks around them. -/
structure Unmarked (d : String × String) : Prop where
  name : ∀ c ∈ d.1.toList, c ∉ [':', ';', '&']
  value : ';' ∉ d.2.toList

private theorem trimChars_subset (cs : List Char) : Text.trimChars cs ⊆ cs := by
  intro c hc
  have hr := (List.dropWhile_sublist Text.isBlank).subset (List.mem_reverse.mp hc)
  exact (List.dropWhile_sublist Text.isBlank).subset (List.mem_reverse.mp hr)

private theorem unmarked_shown {ds : List (String × String)} (h : ∀ d ∈ ds, Unmarked d) :
    ∀ d ∈ shown ds, Unmarked d := by
  intro d hd
  obtain ⟨value, hm, -, ht⟩ := mem_shown.mp hd
  refine ⟨(h _ hm).name, fun hc => (h _ hm).value ?_⟩
  rw [← ht, Text.trim, String.toList_ofList] at hc
  exact trimChars_subset _ hc

private theorem unescapeChars_escapedText {d : String × String} (h : Unmarked d)
    (rest : List Char) :
    unescapeChars ((escapedText d).toList ++ rest) = plainText d ++ unescapeChars rest := by
  have written : (escapedText d).toList =
      (d.1.toList ++ [':', ' ']) ++ escapeChars d.2.toList := by
    simp only [escapedText, escape, String.toList_append, String.toList_ofList]
    rfl
  have hname : '&' ∉ d.1.toList ++ [':', ' '] := by
    rw [List.mem_append]
    rintro (hc | hc)
    · exact h.name _ hc (by decide)
    · exact absurd hc (by decide)
  rw [written, List.append_assoc, unescapeChars_plain hname, unescapeChars_escapeChars, plainText]
  simp only [List.append_assoc, List.cons_append, List.nil_append]

private theorem unescapeChars_intercalate {ds : List (String × String)} (h : ∀ d ∈ ds, Unmarked d) :
    unescapeChars ("; ".intercalate (ds.map escapedText)).toList = joined ds := by
  induction ds with
  | nil => rfl
  | cons d ds ih =>
    obtain ⟨hd, hds⟩ := List.forall_mem_cons.mp h
    cases ds with
    | nil =>
      have read := unescapeChars_escapedText hd []
      rw [List.append_nil, unescapeChars, List.append_nil] at read
      rw [List.map_singleton, String.intercalate_singleton]
      exact read
    | cons e ds =>
      rw [List.map_cons, List.map_cons, String.intercalate_cons_cons, ← List.map_cons,
        String.toList_append, String.toList_append, List.append_assoc,
        unescapeChars_escapedText hd, unescapeChars_plain (by decide), ih hds]
      rfl

private theorem inlineStyle_eq (ds : List (String × String)) :
    inlineStyle ds = "; ".intercalate ((shown ds).map escapedText) := by
  rw [inlineStyle, shown_eq, List.map_map]
  rfl

private theorem unescape_inlineStyle {ds : List (String × String)} (h : ∀ d ∈ ds, Unmarked d) :
    (unescape (inlineStyle ds)).toList = joined (shown ds) := by
  rw [unescape, String.toList_ofList, inlineStyle_eq, unescapeChars_intercalate (unmarked_shown h)]

private theorem readDeclaration?_plainText {d : String × String} (h : Unmarked d) :
    readDeclaration? (plainText d) = some d := by
  have hname : ':' ∉ d.1.toList := fun hc => h.name _ hc (by decide)
  rw [readDeclaration?, plainText, cutAt?_append hname]
  simp only [Option.map_some, String.ofList_toList]

private theorem not_mem_plainText {d : String × String} (h : Unmarked d) : ';' ∉ plainText d := by
  simp only [plainText, List.mem_append, List.mem_cons, not_or]
  exact ⟨fun hc => h.name _ hc (by decide), by decide, by decide, h.value⟩

private theorem read_joined {d : String × String} {ds : List (String × String)}
    (h : ∀ e ∈ d :: ds, Unmarked e) :
    (partsAt ';' ' ' (joined (d :: ds))).mapM readDeclaration? = some (d :: ds) := by
  induction ds generalizing d with
  | nil =>
    have hd := h d List.mem_cons_self
    rw [joined, partsAt_whole (not_mem_plainText hd), List.mapM_cons,
      readDeclaration?_plainText hd]
    rfl
  | cons e ds ih =>
    obtain ⟨hd, hds⟩ := List.forall_mem_cons.mp h
    rw [joined, partsAt_append (not_mem_plainText hd), List.mapM_cons,
      readDeclaration?_plainText hd, ih hds]
    rfl

/-- Under names and with values that hold none of the marks between them, the declarations of a
style are read back from what is written of it: those that say something, in order, with their
values trimmed. Where there are none the attribute is left out. -/
theorem readDeclarations?_inlineStyle (ds : List (String × String))
    (hname : ∀ d ∈ ds, ∀ c ∈ d.1.toList, c ∉ [':', ';', '&'])
    (hvalue : ∀ d ∈ ds, ';' ∉ d.2.toList) :
    readDeclarations? (unescape (inlineStyle ds)) = some (shown ds) ∧
      (styled ds = "" ↔ ∀ d ∈ ds, Text.trim d.2 ∈ ["", "transparent", "undefined"]) := by
  have h : ∀ d ∈ ds, Unmarked d := fun d hd => ⟨hname d hd, hvalue d hd⟩
  have text := unescape_inlineStyle h
  have marks := unmarked_shown h
  refine ⟨?_, styled_eq_empty_iff ds⟩
  rw [readDeclarations?, text]
  cases hs : shown ds with
  | nil =>
    rw [hs] at text
    exact if_pos (String.toList_eq_nil_iff.mp text)
  | cons d rest =>
    rw [hs] at text marks
    have full : unescape (inlineStyle ds) ≠ "" := by
      intro hempty
      rw [hempty] at text
      have colon : ':' ∈ joined (d :: rest) := by
        cases rest <;> simp [joined, plainText]
      rw [← text] at colon
      exact absurd colon List.not_mem_nil
    rw [if_neg full, read_joined marks]

/-- A font named with everything that has to be escaped, and styles that say nothing. -/
def quotedFonts : List (String × String) :=
  [("font-family", " \"A & B\": 'C', &lt  "), ("color", " "),
   ("background-color", "transparent\t"), ("width", ": <1px>")]

theorem readDeclarations?_inlineStyle_quotedFonts :
    (∀ d ∈ quotedFonts, ∀ c ∈ d.1.toList, c ∉ [':', ';', '&']) ∧
      (∀ d ∈ quotedFonts, ';' ∉ d.2.toList) ∧
      inlineStyle quotedFonts =
        "font-family: &quot;A &amp; B&quot;: &#39;C&#39;, &amp;lt; width: : &lt;1px&gt;" ∧
      readDeclarations? (unescape (inlineStyle quotedFonts)) =
        some [("font-family", "\"A & B\": 'C', &lt"), ("width", ": <1px>")] ∧
      styled quotedFonts ≠ "" := by
  have names : ∀ d ∈ quotedFonts, d.1.toList.all (· ∉ [':', ';', '&']) = true := by decide
  have hname : ∀ d ∈ quotedFonts, ∀ c ∈ d.1.toList, c ∉ [':', ';', '&'] :=
    fun d hd c hc => of_decide_eq_true (List.all_eq_true.mp (names d hd) c hc)
  have hvalue : ∀ d ∈ quotedFonts, ';' ∉ d.2.toList := by decide
  obtain ⟨hread, hnone⟩ := readDeclarations?_inlineStyle quotedFonts hname hvalue
  refine ⟨hname, hvalue, by decide, hread.trans (by decide), fun h => ?_⟩
  exact absurd (hnone.mp h) (by decide)

end MailComposer.Html
