import MailComposer.Component.Styles
import MailComposer.Proofs.Json.ReadBack
import MailComposer.Proofs.Style.ReadBack

/-!
The two parts of a style map without anything that keeps them apart. Every operation on style maps
can be done on the parts alone, also where extras are put in without a look at the vocabulary. What
comes out are the parts of a style map, so that no key is written twice and reading takes back what
is written.
-/
namespace MailComposer.StyleMap
open Json (Decoded Medium Reading)

structure Parts where
  known : Dictionary Property String
  extras : Dictionary String String
deriving DecidableEq

def parts (s : StyleMap) : Parts := ⟨s.known, s.extras⟩

namespace Parts

def empty : Parts := ⟨.empty, .empty⟩

def set (u : Parts) (p : Property) (value : String) : Parts :=
  { u with known := u.known.insert p value }

def erase (u : Parts) (p : Property) : Parts := { u with known := u.known.erase p }

def setKey (u : Parts) (key value : String) : Parts :=
  match Property.ofKey? key with
  | some p => u.set p value
  | none => { u with extras := u.extras.insert key value }

/-- Extras are put among the others under whatever key they have. -/
def merge (u patch : Parts) : Parts where
  known := u.known.insertAll patch.known.entries
  extras := u.extras.insertAll patch.extras.entries

def collect (es : List (Property × String)) : Parts := ⟨.insertAll .empty es, .empty⟩

/-- Entries that are more than the empty text are laid over others, each extra under its key. -/
def overlay (u own : Parts) : Parts :=
  (own.extras.entries.filter (·.2 ≠ "")).foldl (fun u e => u.setKey e.1 e.2)
    ((own.known.entries.filter (·.2 ≠ "")).foldl (fun u e => u.set e.1 e.2) u)

def setScalar (u : Parts) (e : String × Json) : Parts :=
  match scalar? e.2 with
  | some value => u.setKey e.1 value
  | none => u

def ofMembers (members : List (String × Json)) : Parts :=
  (members.foldl (fun es e => Entries.insert e.1 e.2 es) []).foldl setScalar empty

def read (m : Medium) : Reading → Decoded Parts
  | .object members stop => do
    let m ← m.enter
    let members ← Reading.jsonMembers m members
    Json.ending stop
    return ofMembers members
  | r => .error (Json.mismatch "a map" r)

def members (u : Parts) : List (String × Json) :=
  u.known.entries.map (fun e => (e.1.key, .string e.2)) ++
    u.extras.entries.map fun e => (e.1, .string e.2)

/-- What operations on style maps can lead to. -/
inductive Made : Parts → Prop
  | empty : Made empty
  | set {u : Parts} (h : Made u) (p : Property) (value : String) : Made (u.set p value)
  | setKey {u : Parts} (h : Made u) (key value : String) : Made (u.setKey key value)
  | erase {u : Parts} (h : Made u) (p : Property) : Made (u.erase p)
  | merge {u patch : Parts} (h : Made u) (hp : Made patch) : Made (u.merge patch)
  | collect (es : List (Property × String)) : Made (collect es)
  | resolved {own : Parts} (k : Kind) (h : Made own) : Made (k.defaultStyles.parts.overlay own)
  | decoded {m : Medium} {r : Reading} {u : Parts} (h : read m r = .ok u) : Made u

private theorem setKey_of_some {key : String} {p : Property} (h : Property.ofKey? key = some p)
    (u : Parts) (value : String) : u.setKey key value = u.set p value := by rw [setKey, h]

private theorem setKey_of_none {key : String} (h : Property.ofKey? key = none) (u : Parts)
    (value : String) : u.setKey key value = { u with extras := u.extras.insert key value } := by
  rw [setKey, h]

private theorem foldl_set (u : Parts) (es : List (Property × String)) :
    es.foldl (fun u e => u.set e.1 e.2) u = { u with known := u.known.insertAll es } := by
  induction es generalizing u with
  | nil => rfl
  | cons e es ih => exact ih (u.set e.1 e.2)

private theorem foldl_setKey (u : Parts) {es : List (String × String)}
    (h : ∀ e ∈ es, Property.ofKey? e.1 = none) :
    es.foldl (fun u e => u.setKey e.1 e.2) u = { u with extras := u.extras.insertAll es } := by
  induction es generalizing u with
  | nil => rfl
  | cons e es ih =>
    obtain ⟨he, hes⟩ := List.forall_mem_cons.mp h
    rw [List.foldl_cons, ih _ hes, setKey_of_none he]
    rfl

end Parts

private theorem parts_setKey (s : StyleMap) (key value : String) :
    (s.setKey key value).parts = s.parts.setKey key value := by
  unfold setKey
  split
  · next p hp => exact (Parts.setKey_of_some hp s.parts value).symm
  · next hp => exact (Parts.setKey_of_none hp s.parts value).symm

theorem parts_ofList (es : List (Property × String)) : (ofList es).parts = .collect es := by
  calc (ofList es).parts
    _ = es.foldl (fun u e => u.set e.1 e.2) empty.parts :=
      (List.foldl_hom parts fun _ _ => rfl).symm
    _ = .collect es := Parts.foldl_set empty.parts es

/-- No extra can land under a property. -/
theorem parts_merge_filled (s own : StyleMap) :
    (s.merge own.filled).parts = s.parts.overlay own.parts := by
  have foreign : ∀ e ∈ own.filled.extras.entries, Property.ofKey? e.1 = none := own.filled.foreign
  rw [Parts.overlay, Parts.foldl_set]
  exact (Parts.foldl_setKey ⟨s.known.insertAll own.filled.known.entries, s.extras⟩ foreign).symm

private theorem parts_setScalar (s : StyleMap) (e : String × Json) :
    (s.setScalar e).parts = s.parts.setScalar e := by
  unfold setScalar Parts.setScalar
  cases scalar? e.2 with
  | none => rfl
  | some value => exact s.parts_setKey e.1 value

theorem parts_ofMembers (members : List (String × Json)) :
    (ofMembers members).parts = .ofMembers members :=
  (List.foldl_hom parts fun s e => (s.parts_setScalar e).symm).symm

private theorem map_parts_read (m : Medium) (r : Reading) :
    (read m r).map parts = Parts.read m r := by
  cases r with
  | object members stop =>
    simp only [read, Parts.read, bind, Except.bind]
    cases m.enter with
    | error e => rfl
    | ok m =>
      dsimp only
      cases Reading.jsonMembers m members with
      | error e => rfl
      | ok ms =>
        dsimp only
        cases Json.ending stop with
        | error e => rfl
        | ok u => exact congrArg Except.ok (parts_ofMembers ms)
  | _ => rfl

/-- Whatever is done to the parts alone, they stay the parts of a style map. -/
theorem exists_of_made {u : Parts} (h : u.Made) : ∃ s : StyleMap, s.parts = u := by
  induction h with
  | empty => exact ⟨.empty, rfl⟩
  | set _ p value ih =>
    obtain ⟨s, rfl⟩ := ih
    exact ⟨s.set p value, rfl⟩
  | setKey _ key value ih =>
    obtain ⟨s, rfl⟩ := ih
    exact ⟨s.setKey key value, s.parts_setKey key value⟩
  | erase _ p ih =>
    obtain ⟨s, rfl⟩ := ih
    exact ⟨s.erase p, rfl⟩
  | merge _ _ ih ihp =>
    obtain ⟨s, rfl⟩ := ih
    obtain ⟨patch, rfl⟩ := ihp
    exact ⟨s.merge patch, rfl⟩
  | collect es => exact ⟨ofList es, parts_ofList es⟩
  | resolved k _ ih =>
    obtain ⟨own, rfl⟩ := ih
    exact ⟨k.defaultStyles.merge own.filled, parts_merge_filled _ own⟩
  | @decoded m r u h =>
    rw [← map_parts_read] at h
    cases hr : read m r with
    | error e =>
      rw [hr] at h
      cases h
    | ok s =>
      rw [hr] at h
      exact ⟨s, Except.ok.inj h⟩

theorem members_parts (s : StyleMap) : s.parts.members = s.members := by
  rw [members, entries, List.map_append, List.map_map]
  rfl

private theorem ofText?_toJson (s : StyleMap) {text : String}
    (h : text = s.toJson.compact ∨ text = s.toJson.pretty) : ofText? text = .ok s := by
  refine Json.decodeText_eq_ok ⟨s.plain_toJson, ?_⟩ h (read_toJson _ s)
  rw [depth_toJson]
  decide

/-- Style maps are written with every key once, those of the vocabulary in its order and then the
others in theirs, and are read from what is written as they were. -/
theorem made_readBack {u : Parts} (h : u.Made) :
    (∀ e ∈ u.extras.entries, Property.ofKey? e.1 = none) ∧ (u.members.map Prod.fst).Nodup ∧
      (u.known.entries.Pairwise fun a b => a.1 < b.1) ∧
      (u.extras.entries.Pairwise fun a b => a.1 < b.1) ∧
      ∃ s : StyleMap, s.parts = u ∧ s.toJson = .object u.members ∧
        read .value (.ofJson s.toJson) = .ok s ∧
        ofText? s.toJson.compact = .ok s ∧ ofText? s.toJson.pretty = .ok s := by
  obtain ⟨s, rfl⟩ := exists_of_made h
  have hm := s.members_parts
  refine ⟨s.foreign, hm ▸ s.nodup_keys_members, s.known.ascending, s.extras.ascending,
    s, rfl, congrArg Json.object hm.symm, ?_, s.ofText?_toJson (.inl rfl),
    s.ofText?_toJson (.inr rfl)⟩
  rw [read_toJson]
  rfl

/-- Styles of a card as they are written by hand: a shorthand, a number, and a gap left open. -/
def cardMembers : List (String × Json) :=
  [("padding", .string "10px"), ("color", .string ""), ("gap", .null), ("opacity", .nat 1)]

/-- They are laid over others and over the styles of a text; a shadow is put in by name. -/
def cardParts : Parts :=
  let own : Parts := .collect [(.color, "red"), (.fontSize, "12px"), (.color, "blue")]
  let resolved := Kind.text.defaultStyles.parts.overlay (own.merge (.ofMembers cardMembers))
  (resolved.setKey "text\"Shadow" "none").erase .lineHeight

theorem made_readBack_card :
    cardParts.Made ∧ cardParts.extras.entries = [("padding", "10px"), ("text\"Shadow", "none")] ∧
      (cardParts.members.map Prod.fst).Nodup ∧
      ∃ s : StyleMap, s.parts = cardParts ∧ ofText? s.toJson.compact = .ok s := by
  have hread : Parts.read .value (.ofJson (.object cardMembers)) =
      .ok (.ofMembers cardMembers) := rfl
  have own := (Parts.Made.collect [(.color, "red"), (.fontSize, "12px"), (.color, "blue")]).merge
    (.decoded hread)
  have made : cardParts.Made :=
    ((own.resolved .text).setKey "text\"Shadow" "none").erase .lineHeight
  obtain ⟨-, hn, -, -, s, hs, -, -, hc, -⟩ := made_readBack made
  exact ⟨made, by decide, hn, s, hs, hc⟩

end MailComposer.StyleMap
