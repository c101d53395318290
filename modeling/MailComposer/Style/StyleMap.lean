import MailComposer.Style.CssName

/-!
Style maps: values under properties, and under keys outside the vocabulary. Both kinds are kept
apart by construction, so that a map never holds two values under one key.
-/
namespace MailComposer

structure StyleMap where
  known : Dictionary Property String
  extras : Dictionary String String
  foreign : ∀ e ∈ extras.entries, Property.ofKey? e.1 = none

namespace StyleMap

instance : DecidableEq StyleMap := fun a b =>
  decidable_of_iff (a.known = b.known ∧ a.extras = b.extras)
    ⟨fun h => by cases a; cases b; simp_all, fun h => h ▸ ⟨rfl, rfl⟩⟩

def empty : StyleMap := ⟨.empty, .empty, fun _ h => nomatch h⟩

instance : Inhabited StyleMap := ⟨empty⟩

theorem ext_parts {a b : StyleMap} (hk : a.known = b.known) (he : a.extras = b.extras) : a = b := by
  cases a; cases b; simp_all

def get? (s : StyleMap) (p : Property) : Option String := s.known.get? p

/-- The value of a property that is more than the empty text. -/
def nonEmpty? (s : StyleMap) (p : Property) : Option String := (s.get? p).filter (· ≠ "")

def extra? (s : StyleMap) (key : String) : Option String := s.extras.get? key

def set (s : StyleMap) (p : Property) (value : String) : StyleMap :=
  { s with known := s.known.insert p value }

def erase (s : StyleMap) (p : Property) : StyleMap := { s with known := s.known.erase p }

def setExtra (s : StyleMap) (key value : String) (h : Property.ofKey? key = none) : StyleMap where
  known := s.known
  extras := s.extras.insert key value
  foreign e he := by
    rcases Entries.mem_of_mem_insert he with rfl | he
    · exact h
    · exact s.foreign e he

/-- A key of the vocabulary sets its property, any other an extra. -/
def setKey (s : StyleMap) (key value : String) : StyleMap :=
  match h : Property.ofKey? key with
  | some p => s.set p value
  | none => s.setExtra key value h

def ofList (es : List (Property × String)) : StyleMap :=
  es.foldl (fun s e => s.set e.1 e.2) empty

private theorem foreign_insertAll {d : Dictionary String String}
    (hd : ∀ e ∈ d.entries, Property.ofKey? e.1 = none)
    {es : List (String × String)} (hes : ∀ e ∈ es, Property.ofKey? e.1 = none) :
    ∀ e ∈ (d.insertAll es).entries, Property.ofKey? e.1 = none := by
  induction es generalizing d with
  | nil => exact hd
  | cons e es ih =>
    refine ih (fun x hx => ?_) fun x hx => hes x (List.mem_cons_of_mem e hx)
    rcases Entries.mem_of_mem_insert hx with rfl | hx
    · exact hes _ List.mem_cons_self
    · exact hd x hx

/-- Key by key; what the patch does not mention is kept. -/
def merge (s patch : StyleMap) : StyleMap where
  known := s.known.insertAll patch.known.entries
  extras := s.extras.insertAll patch.extras.entries
  foreign := foreign_insertAll s.foreign patch.foreign

/-- The entries with a value that is more than the empty text. -/
def filled (s : StyleMap) : StyleMap where
  known := s.known.filter (· ≠ "")
  extras := s.extras.filter (· ≠ "")
  foreign e he := s.foreign e (List.mem_filter.mp he).1

/-- Keeps only some of the properties; keys outside the vocabulary stay. -/
def restrict (s : StyleMap) (keep : Property → Bool) : StyleMap :=
  { s with known := s.known.restrict keep }

def size (s : StyleMap) : Nat := s.known.size + s.extras.size

def isEmpty (s : StyleMap) : Bool := s.known.isEmpty && s.extras.isEmpty

/-- All entries under their keys, properties first. -/
def entries (s : StyleMap) : List (String × String) :=
  s.known.entries.map (fun e => (e.1.key, e.2)) ++ s.extras.entries

/-- All entries under their CSS names. -/
def declarations (s : StyleMap) : List (String × String) :=
  s.entries.map fun e => (cssName e.1, e.2)

end StyleMap

end MailComposer
