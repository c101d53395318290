import Mathlib.Data.List.Basic
import MailComposer.Dictionary
import MailComposer.Html.Escape

/-!
Entities as a code for texts. Each sign of markup can be replaced in the whole text before the next
one is looked for, or all of them in one pass, character by character; and one pass takes all
entities back. Main statement: the two ways to escape agree, and what is escaped can be told apart
from markup and from anything else that is escaped.
-/
namespace MailComposer.Html

/-- The signs of markup and their entities. The ampersand stands first: all entities hold one. -/
def entities : List (Char × List Char) :=
  [('&', "&amp;".toList), ('<', "&lt;".toList), ('>', "&gt;".toList), ('"', "&quot;".toList),
   ('\'', "&#39;".toList)]

/-- Puts a text in the place of each occurrence of a character. -/
def replaceChar (sign : Char) (new cs : List Char) : List Char :=
  cs.flatMap fun c => if c = sign then new else [c]

/-- Replaces sign by sign, each in all that the passes before have left. -/
def replaceInTurn (passes : List (Char × List Char)) (cs : List Char) : List Char :=
  passes.foldl (fun cs e => replaceChar e.1 e.2 cs) cs

/-- What the passes have for a character on its own, the character itself if they have nothing. -/
def replacement (passes : List (Char × List Char)) (c : Char) : List Char :=
  (Entries.get? c passes).getD [c]

private theorem replacement_cons (e : Char × List Char) (passes : List (Char × List Char))
    (c : Char) : replacement (e :: passes) c = if c = e.1 then e.2 else replacement passes c := by
  rw [replacement, Entries.get?]
  split <;> rfl

private theorem replacement_of_absent {passes : List (Char × List Char)} {c : Char}
    (h : ∀ e ∈ passes, e.1 ≠ c) : replacement passes c = [c] := by
  induction passes with
  | nil => rfl
  | cons e passes ih =>
    obtain ⟨he, hpasses⟩ := List.forall_mem_cons.mp h
    rw [replacement_cons, if_neg he.symm, ih hpasses]

/-- Where no pass puts in a sign that a later one looks for, each character goes its own way. -/
private theorem replaceInTurn_eq_flatMap {passes : List (Char × List Char)}
    (h : passes.Pairwise fun a b => b.1 ∉ a.2) (cs : List Char) :
    replaceInTurn passes cs = cs.flatMap (replacement passes) := by
  induction passes generalizing cs with
  | nil => exact cs.flatMap_singleton'.symm
  | cons e passes ih =>
    obtain ⟨he, hpasses⟩ := List.pairwise_cons.mp h
    have kept : e.2.flatMap (replacement passes) = e.2 := by
      have alone : ∀ c ∈ e.2, replacement passes c = [c] := fun c hc =>
        replacement_of_absent fun d hd hdc => he d hd (hdc ▸ hc)
      rw [List.flatMap_congr alone, List.flatMap_singleton']
    have step (c : Char) : (if c = e.1 then e.2 else [c]).flatMap (replacement passes) =
        replacement (e :: passes) c := by
      rw [replacement_cons]
      split
      · exact kept
      · exact List.flatMap_singleton _ c
    calc replaceInTurn (e :: passes) cs
      _ = (replaceChar e.1 e.2 cs).flatMap (replacement passes) := ih hpasses _
      _ = cs.flatMap (replacement (e :: passes)) := by
        simp only [replaceChar, List.flatMap_assoc, step]

private theorem replacement_entities (c : Char) : replacement entities c = entity c := by
  unfold entity
  split
  any_goals rfl
  next hamp hlt hgt hquot hapos =>
    refine replacement_of_absent fun e he => ?_
    simp only [entities, List.mem_cons, List.not_mem_nil, or_false] at he
    rcases he with rfl | rfl | rfl | rfl | rfl
    exacts [Ne.symm hamp, Ne.symm hlt, Ne.symm hgt, Ne.symm hquot, Ne.symm hapos]

private theorem escapeChars_eq_replaceInTurn (cs : List Char) :
    escapeChars cs = replaceInTurn entities cs := by
  rw [replaceInTurn_eq_flatMap (by decide), escapeChars]
  exact List.flatMap_congr fun c _ => (replacement_entities c).symm

/-- With the ampersand last its pass would find those of the other entities. -/
example : replaceInTurn entities.reverse "<".toList = "&amp;lt;".toList := by decide

private theorem entity_cases (c : Char) :
    (c, entity c) ∈ entities ∨ entity c = [c] ∧ c ∉ ['&', '<', '>', '"', '\''] := by
  unfold entity
  split
  any_goals (left; decide)
  next hamp hlt hgt hquot hapos =>
    refine .inr ⟨rfl, ?_⟩
    simp only [List.mem_cons, List.not_mem_nil, or_false, not_or]
    exact ⟨hamp, hlt, hgt, hquot, hapos⟩

private theorem escapeChars_append (cs ds : List Char) :
    escapeChars (cs ++ ds) = escapeChars cs ++ escapeChars ds := List.flatMap_append

theorem not_sign_of_mem_escapeChars {cs : List Char} {c : Char} (h : c ∈ escapeChars cs) :
    c ∉ ['<', '>', '"', '\''] := by
  obtain ⟨d, -, hd⟩ := List.mem_flatMap.mp h
  rcases entity_cases d with he | ⟨he, hplain⟩
  · have clean : ∀ e ∈ entities, e.2.all (· ∉ ['<', '>', '"', '\'']) = true := by decide
    exact of_decide_eq_true (List.all_eq_true.mp (clean _ he) c hd)
  · rw [he] at hd
    obtain rfl := List.mem_singleton.mp hd
    exact fun hc => hplain (List.mem_cons_of_mem _ hc)

/-- An ampersand is the first character of an entity and stands nowhere else. -/
private theorem entity_eq_append {c : Char} {before after : List Char}
    (h : entity c = before ++ '&' :: after) : before = [] ∧ (c, '&' :: after) ∈ entities := by
  rcases entity_cases c with he | ⟨he, hplain⟩
  · have first : ∀ e ∈ entities, e.2.head? = some '&' ∧ '&' ∉ e.2.tail := by decide
    obtain ⟨-, htail⟩ := first _ he
    rw [h] at he htail
    cases before with
    | nil => exact ⟨rfl, he⟩
    | cons b before => exact absurd (List.mem_append_right before List.mem_cons_self) htail
  · have hc : '&' ∈ entity c := h ▸ List.mem_append_right before List.mem_cons_self
    rw [he] at hc
    exact absurd (List.mem_singleton.mp hc ▸ List.mem_cons_self) hplain

private theorem entity_of_ampersand {cs before after : List Char}
    (h : escapeChars cs = before ++ '&' :: after) : ∃ e ∈ entities, e.2 <+: '&' :: after := by
  induction cs generalizing before with
  | nil => exact absurd h (List.append_ne_nil_of_right_ne_nil _ (List.cons_ne_nil _ _)).symm
  | cons c cs ih =>
    have hc : entity c ++ escapeChars cs = before ++ '&' :: after := h
    rcases List.append_eq_append_iff.mp hc with ⟨rest, -, hcs⟩ | ⟨rest, hentity, hrest⟩
    · exact ih hcs
    · cases rest with
      | nil =>
        have hcs : escapeChars cs = [] ++ '&' :: after := hrest.symm
        exact ih hcs
      | cons r rest =>
        obtain rfl : '&' = r := (List.cons.inj hrest).1
        obtain ⟨-, he⟩ := entity_eq_append hentity
        exact ⟨_, he, escapeChars cs, hrest.symm⟩

/-- One pass from left to right: an entity becomes its character, all else is kept. -/
def unescapeChars : List Char → List Char
  | [] => []
  | '&' :: 'a' :: 'm' :: 'p' :: ';' :: cs => '&' :: unescapeChars cs
  | '&' :: 'l' :: 't' :: ';' :: cs => '<' :: unescapeChars cs
  | '&' :: 'g' :: 't' :: ';' :: cs => '>' :: unescapeChars cs
  | '&' :: 'q' :: 'u' :: 'o' :: 't' :: ';' :: cs => '"' :: unescapeChars cs
  | '&' :: '#' :: '3' :: '9' :: ';' :: cs => '\'' :: unescapeChars cs
  | c :: cs => c :: unescapeChars cs

def unescape (s : String) : String := String.ofList (unescapeChars s.toList)

private theorem unescapeChars_cons {c : Char} (h : c ≠ '&') (cs : List Char) :
    unescapeChars (c :: cs) = c :: unescapeChars cs := by
  rw [unescapeChars.eq_def]
  split <;> simp_all

theorem unescapeChars_plain {cs : List Char} (h : '&' ∉ cs) (rest : List Char) :
    unescapeChars (cs ++ rest) = cs ++ unescapeChars rest := by
  induction cs with
  | nil => rfl
  | cons c cs ih =>
    obtain ⟨hc, hcs⟩ := not_or.mp (mt List.mem_cons.mpr h)
    rw [List.cons_append, unescapeChars_cons (Ne.symm hc), ih hcs, List.cons_append]

private theorem unescapeChars_entity (c : Char) (rest : List Char) :
    unescapeChars (entity c ++ rest) = c :: unescapeChars rest := by
  unfold entity
  split
  any_goals rfl
  next hamp _ _ _ _ => exact unescapeChars_cons hamp rest

/-- What is escaped is read back in front of any text. -/
theorem unescapeChars_escapeChars (cs rest : List Char) :
    unescapeChars (escapeChars cs ++ rest) = cs ++ unescapeChars rest := by
  induction cs with
  | nil => rfl
  | cons c cs ih =>
    have step : escapeChars (c :: cs) ++ rest = entity c ++ (escapeChars cs ++ rest) :=
      List.append_assoc _ _ _
    rw [step, unescapeChars_entity, ih, List.cons_append]

theorem unescape_escape (s : String) : unescape (escape s) = s := by
  have h := unescapeChars_escapeChars s.toList []
  rw [List.append_nil, unescapeChars, List.append_nil] at h
  rw [unescape, escape, String.toList_ofList, h, String.ofList_toList]

/-- Escaping sign by sign is escaping character by character. The result holds no sign of markup but
the ampersands of its entities, and one pass over it takes all of them back, so that no two texts
are escaped alike. Texts in a row can be escaped apart. -/
theorem escape_faithful :
    (∀ s : String, escape s = String.ofList (replaceInTurn entities s.toList) ∧
      escape s = String.ofList (s.toList.flatMap (replacement entities))) ∧
    (∀ s : String, (∀ c ∈ (escape s).toList, c ∉ ['<', '>', '"', '\'']) ∧
      ∀ before after, (escape s).toList = before ++ '&' :: after →
        ∃ e ∈ entities, e.2 <+: '&' :: after) ∧
    (∀ s : String, unescape (escape s) = s) ∧ Function.Injective escape ∧
    ∀ s t : String, escape (s ++ t) = escape s ++ escape t := by
  refine ⟨fun s => ⟨?_, ?_⟩, fun s => ⟨?_, ?_⟩, unescape_escape, ?_, fun s t => ?_⟩
  · rw [escape, escapeChars_eq_replaceInTurn]
  · rw [escape, escapeChars_eq_replaceInTurn, replaceInTurn_eq_flatMap (by decide)]
  · intro c hc
    rw [escape, String.toList_ofList] at hc
    exact not_sign_of_mem_escapeChars hc
  · intro before after h
    rw [escape, String.toList_ofList] at h
    exact entity_of_ampersand h
  · exact Function.LeftInverse.injective unescape_escape
  · rw [escape, String.toList_append, escapeChars_append, String.ofList_append]
    rfl

end MailComposer.Html
