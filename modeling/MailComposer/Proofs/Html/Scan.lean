import MailComposer.Proofs.Html.Inert

/-!
Markup read from left to right with a stack of open tags. Each closing tag has to name the innermost
open one, and a sign that opens or closes a tag has to do so. What two readings make of two texts,
one reading makes of both in a row.
-/
namespace MailComposer.Html

/-- What a character is part of. The name of a tag is held backwards while it is read. -/
inductive Spot where
  | text
  | name (read : List Char)
  | attributes (tag : List Char)
  | value (tag : List Char) (quote : Char)
deriving DecidableEq, Repr

/-- The innermost open tag stands first. -/
structure Reader where
  opened : List (List Char)
  spot : Spot
deriving DecidableEq, Repr

namespace Reader

def void : List (List Char) := ["!DOCTYPE", "meta", "img", "hr"].map String.toList

/-- The end of a tag. -/
def finish (opened : List (List Char)) : List Char → Option Reader
  | '/' :: tag =>
    match opened with
    | top :: rest => if top = tag then some ⟨rest, .text⟩ else none
    | [] => none
  | tag => some ⟨if tag ∈ void then opened else tag :: opened, .text⟩

def step (r : Reader) (c : Char) : Option Reader :=
  match r.spot with
  | .text =>
    if c = '<' then some ⟨r.opened, .name []⟩ else if c = '>' then none else some r
  | .name read =>
    if c = '>' then finish r.opened read.reverse
    else if c = '<' then none
    else if c = ' ' then some ⟨r.opened, .attributes read.reverse⟩
    else some ⟨r.opened, .name (c :: read)⟩
  | .attributes tag =>
    if c = '>' then finish r.opened tag
    else if c = '<' then none
    else if c = '"' ∨ c = '\'' then some ⟨r.opened, .value tag c⟩
    else some r
  | .value tag quote =>
    if c = quote then some ⟨r.opened, .attributes tag⟩
    else if c = '<' ∨ c = '>' then none
    else some r

def scan (r : Reader) (s : String) : Option Reader := s.toList.foldlM step r

end Reader

/-- Read from its start, the text closes each tag that it opens, the innermost first. -/
def WellNested (s : String) : Prop := Reader.scan ⟨[], .text⟩ s = some ⟨[], .text⟩

instance (s : String) : Decidable (WellNested s) :=
  inferInstanceAs (Decidable (Reader.scan _ s = some _))

example : WellNested "<!DOCTYPE html><p title='a' id=b>it's</p><hr />" := by decide

example : ¬ WellNested "<div><p></div></p>" ∧ ¬ WellNested "<p title='>'>" := by decide

/-- The text takes a reader from one state to another. -/
def Reads (s : String) (a b : Reader) : Prop := Reader.scan a s = some b

namespace Reads
variable {s t : String} {a b c : Reader}

theorem empty (a : Reader) : Reads "" a a := rfl

theorem append (hs : Reads s a b) (ht : Reads t b c) : Reads (s ++ t) a c := by
  unfold Reads Reader.scan at *
  rw [String.toList_append, List.foldlM_append, hs]
  exact ht

private theorem of_stay (h : ∀ c ∈ s.toList, a.step c = some a) : Reads s a a := by
  unfold Reads Reader.scan
  generalize s.toList = cs at h
  induction cs with
  | nil => rfl
  | cons c cs ih =>
    obtain ⟨hc, hcs⟩ := List.forall_mem_cons.mp h
    rw [List.foldlM_cons, hc]
    exact ih hcs

theorem join {ss : List String} (h : ∀ s ∈ ss, Reads s a a) : Reads (String.join ss) a a := by
  induction ss with
  | nil => exact .empty a
  | cons s ss ih =>
    obtain ⟨hs, hss⟩ := List.forall_mem_cons.mp h
    rw [String.join_cons]
    exact hs.append (ih hss)

end Reads

/-- Holds neither of the signs around a tag. -/
def Plain (s : String) : Prop := ∀ c ∈ s.toList, c ≠ '<' ∧ c ≠ '>'

private theorem plain_iff_all (s : String) :
    Plain s ↔ (s.toList.all fun c => c != '<' && c != '>') = true := by
  simp [Plain]

instance (s : String) : Decidable (Plain s) := decidable_of_iff _ (plain_iff_all s).symm

theorem Inert.plain {s : String} (h : Inert s) : Plain s := by
  intro c hc
  have := h c hc
  simp only [isSign, Bool.or_eq_false_iff, beq_eq_false_iff_ne] at this
  exact this.1

theorem reads_plain {s : String} (h : Plain s) (opened : List (List Char)) :
    Reads s ⟨opened, .text⟩ ⟨opened, .text⟩ := by
  refine .of_stay fun c hc => ?_
  obtain ⟨hl, hg⟩ := h c hc
  simp [Reader.step, hl, hg]

theorem reads_inert {s : String} (h : Inert s) (opened : List (List Char)) (tag : List Char) :
    Reads s ⟨opened, .value tag '"'⟩ ⟨opened, .value tag '"'⟩ := by
  refine .of_stay fun c hc => ?_
  obtain ⟨hl, hg⟩ := h.plain c hc
  have hq : c ≠ '"' := by
    have := h c hc
    simp only [isSign, Bool.or_eq_false_iff, beq_eq_false_iff_ne] at this
    exact this.2
  simp [Reader.step, hl, hg, hq]

/-- The name of the tag that is being read, where its attributes may go on. -/
def Spot.tag? : Spot → Option (List Char)
  | .name read => some read.reverse
  | .attributes tag => some tag
  | _ => none

/-- The text starts a tag and leaves it open for attributes. -/
def Starts (tag : List Char) (s : String) : Prop :=
  ∃ p : Spot, p.tag? = some tag ∧ ∀ opened, Reads s ⟨opened, .text⟩ ⟨opened, p⟩

/-- The text goes on inside any tag, and leaves it open for more. -/
def Continues (s : String) : Prop :=
  ∀ p : Spot, ∀ tag, p.tag? = some tag → ∃ q : Spot, q.tag? = some tag ∧
    ∀ opened, Reads s ⟨opened, p⟩ ⟨opened, q⟩

theorem continues_empty : Continues "" := fun p _ hp => ⟨p, hp, fun _ => .empty _⟩

theorem Continues.append {s t : String} (hs : Continues s) (ht : Continues t) :
    Continues (s ++ t) := by
  intro p tag hp
  obtain ⟨q, hq, h⟩ := hs p tag hp
  obtain ⟨q', hq', h'⟩ := ht q tag hq
  exact ⟨q', hq', fun opened => (h opened).append (h' opened)⟩

theorem Starts.append {tag : List Char} {s t : String} (hs : Starts tag s) (ht : Continues t) :
    Starts tag (s ++ t) := by
  obtain ⟨p, hp, h⟩ := hs
  obtain ⟨q, hq, h'⟩ := ht p tag hp
  exact ⟨q, hq, fun opened => (h opened).append (h' opened)⟩

/-- A blank before an attribute ends the name. -/
private theorem step_blank {p : Spot} {tag : List Char} (hp : p.tag? = some tag)
    (opened : List (List Char)) :
    Reader.step ⟨opened, p⟩ ' ' = some ⟨opened, .attributes tag⟩ := by
  cases p with
  | name | attributes => cases hp; rfl
  | text | value => cases hp

private theorem step_end {p : Spot} {tag : List Char} (hp : p.tag? = some tag)
    (opened : List (List Char)) : Reader.step ⟨opened, p⟩ '>' = Reader.finish opened tag := by
  cases p with
  | name | attributes => cases hp; rfl
  | text | value => cases hp

private theorem reads_blank {p : Spot} {tag : List Char} (hp : p.tag? = some tag)
    (opened : List (List Char)) : Reads " " ⟨opened, p⟩ ⟨opened, .attributes tag⟩ :=
  (List.foldlM_cons ..).trans (congrArg (· >>= _) (step_blank hp opened))

private theorem reads_end {p : Spot} {tag : List Char} (hp : p.tag? = some tag)
    {opened : List (List Char)} {r : Reader} (hr : Reader.finish opened tag = some r) :
    Reads ">" ⟨opened, p⟩ r :=
  (List.foldlM_cons ..).trans (congrArg (· >>= _) ((step_end hp opened).trans hr))

/-- Whole attributes, the first of them behind a blank. -/
theorem continues_attributes {s : String} {rest : List Char} (hs : s.toList = ' ' :: rest)
    (h : ∀ opened tag, rest.foldlM Reader.step ⟨opened, .attributes tag⟩ =
      some ⟨opened, .attributes tag⟩) : Continues s := by
  intro p tag hp
  refine ⟨.attributes tag, rfl, fun opened => ?_⟩
  rw [Reads, Reader.scan, hs, List.foldlM_cons, step_blank hp opened]
  exact h opened tag

/-- A quoted attribute whose value holds no sign. -/
theorem continues_attribute (before : String) {value : String} (hb : ∀ opened tag,
      Reads before ⟨opened, .attributes tag⟩ ⟨opened, .value tag '"'⟩) (hv : Inert value) :
    Continues (" " ++ before ++ value ++ "\"") := by
  intro p tag hp
  refine ⟨.attributes tag, rfl, fun opened => ?_⟩
  exact (((reads_blank hp opened).append (hb opened tag)).append
    (reads_inert hv opened tag)).append rfl

section
variable {tag : List Char} {s : String} {opened : List (List Char)} {r : Reader}

theorem Starts.finish (hs : Starts tag s) (hr : Reader.finish opened tag = some r) :
    Reads (s ++ ">") ⟨opened, .text⟩ r := by
  obtain ⟨p, hp, h⟩ := hs
  exact (h opened).append (reads_end hp hr)

/-- The slash before the end of a void tag is one more attribute. -/
theorem Starts.finishVoid (hs : Starts tag s) (hr : Reader.finish opened tag = some r) :
    Reads (s ++ " />") ⟨opened, .text⟩ r := by
  obtain ⟨p, hp, h⟩ := hs
  have hslash : Reads "/" ⟨opened, .attributes tag⟩ ⟨opened, .attributes tag⟩ := rfl
  exact (h opened).append (((reads_blank hp opened).append hslash).append (reads_end rfl hr))

end

end MailComposer.Html
