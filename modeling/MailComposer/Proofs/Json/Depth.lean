import MailComposer.Json.Record

/-!
How deep a value is nested, and which depths a medium allows. A decoder that takes back what was
written fails on the depth or not at all.
-/
namespace MailComposer.Json

mutual

/-- Levels of arrays and objects in a value. -/
def depth : Json → Nat
  | .array items => depthItems items + 1
  | .object members => depthMembers members + 1
  | _ => 0

def depthItems : List Json → Nat
  | [] => 0
  | j :: rest => max (depth j) (depthItems rest)

def depthMembers : List (String × Json) → Nat
  | [] => 0
  | (_, j) :: rest => max (depth j) (depthMembers rest)

end

theorem depthItems_strings (xs : List String) : depthItems (xs.map .string) = 0 := by
  induction xs with
  | nil => rfl
  | cons x xs ih =>
    change max 0 (depthItems (xs.map .string)) = 0
    rw [ih, Nat.max_self]

namespace Medium

def Allows : Medium → Nat → Prop
  | .text room, d => d ≤ room
  | .value, _ | .held, _ => True

instance : (m : Medium) → (d : Nat) → Decidable (m.Allows d)
  | .text room, d => inferInstanceAs (Decidable (d ≤ room))
  | .value, _ | .held, _ => isTrue trivial

/-- What a decoder gives that has nothing to complain of but the depth `d` of its reading. -/
def within (m : Medium) (d : Nat) (a : α) : Decoded α :=
  if m.Allows d then .ok a else .error (.fault .malformed)

variable {m : Medium} {d e : Nat} {a : α} {b : β}

private theorem allows_max : m.Allows (max d e) ↔ m.Allows d ∧ m.Allows e := by
  cases m with
  | text room => exact Nat.max_le
  | value | held => exact (and_self_iff).symm

@[simp] theorem within_zero (m : Medium) (a : α) : m.within 0 a = .ok a := by
  cases m with
  | text room => exact if_pos (Nat.zero_le room)
  | value | held => rfl

theorem within_eq_ok {a' : α} : m.within d a = .ok a' ↔ m.Allows d ∧ a' = a := by
  unfold within
  split
  · next h =>
    constructor
    · intro e
      exact ⟨h, (Except.ok.inj e).symm⟩
    · rintro ⟨-, rfl⟩
      rfl
  · next h =>
    constructor
    · nofun
    · intro e
      exact absurd e.1 h

@[simp] theorem within_map (m : Medium) (d : Nat) (a : α) (f : α → β) :
    (m.within d a).map f = m.within d (f a) := by
  unfold within
  split <;> rfl

theorem within_bind {f : α → Decoded β} (h : f a = m.within e b) :
    (m.within d a >>= f) = m.within (max d e) b := by
  unfold within at h ⊢
  by_cases hd : m.Allows d
  · rw [if_pos hd]
    refine h.trans ?_
    simp only [allows_max, hd, true_and]
  · rw [if_neg hd, if_neg fun h => hd (allows_max.mp h).1]
    rfl

theorem within_bind_ok {f : α → Decoded β} (h : f a = .ok b) :
    (m.within d a >>= f) = m.within d b := by
  have hb := within_bind (d := d) (h.trans (within_zero m b).symm)
  rwa [Nat.max_zero] at hb

theorem enter_bind {f : Medium → Decoded α} (h : ∀ m : Medium, f m = m.within d a) :
    (m.enter >>= f) = m.within (d + 1) a := by
  cases m with
  | text room =>
    cases room with
    | zero => exact (if_neg (Nat.not_succ_le_zero d)).symm
    | succ room =>
      have hs : Allows (.text (room + 1)) (d + 1) ↔ Allows (.text room) d :=
        Nat.add_le_add_iff_right
      refine (h (.text room)).trans ?_
      rw [within, within]
      split
      · next hd => exact (if_pos (hs.mpr hd)).symm
      · next hd => exact (if_neg fun h => hd (hs.mp h)).symm
  | value | held => exact h _

end Medium

namespace Reading
open Medium

mutual

theorem json_ofJson (m : Medium) : ∀ j : Json, (Reading.ofJson j).json m = m.within j.depth j
  | .null | .bool _ | .number _ | .string _ => (within_zero m _).symm
  | .array items => enter_bind fun m => by
    rw [jsonItems_ofItems m items]
    exact within_bind_ok rfl
  | .object members => enter_bind fun m => by
    rw [jsonMembers_ofMembers m members]
    exact within_bind_ok rfl

private theorem jsonItems_ofItems (m : Medium) : ∀ items : List Json,
    jsonItems m (ofItems items) = m.within (depthItems items) items
  | [] => (within_zero m _).symm
  | j :: rest => by
    rw [ofItems, jsonItems, json_ofJson m j, jsonItems_ofItems m rest]
    exact within_bind (within_map m _ _ _)

theorem jsonMembers_ofMembers (m : Medium) : ∀ members : List (String × Json),
    jsonMembers m (ofMembers members) = m.within (depthMembers members) members
  | [] => (within_zero m _).symm
  | (k, j) :: rest => by
    rw [ofMembers, jsonMembers, json_ofJson m j, jsonMembers_ofMembers m rest]
    exact within_bind (within_map m _ _ _)

end

theorem hold_ofJson (m : Medium) (j : Json) :
    (Reading.ofJson j).hold m = m.within j.depth (.ofJson j) := by
  rw [hold, json_ofJson, within_map]

theorem texts_ofJson (m : Medium) (xs : List String) :
    (Reading.ofJson (.texts xs)).texts m = m.within (Json.texts xs).depth xs := by
  have all : (ofItems (xs.map .string)).mapM text = .ok xs := by
    induction xs with
    | nil => rfl
    | cons x xs ih =>
      rw [List.map_cons, ofItems, List.mapM_cons, ih]
      rfl
  apply enter_bind
  intro m
  rw [depthItems_strings, within_zero]
  exact congrArg (· >>= _) all

theorem byte_ofJson (n : UInt8) : (Reading.ofJson (.nat n.toNat)).byte = .ok n := by
  have hn : (Reading.ofJson (.nat n.toNat)).natural UInt8.size "u8" = .ok n.toNat :=
    if_pos n.toNat_lt
  rw [byte, hn]
  exact congrArg Except.ok (UInt8.ofNat_toNat)

end Reading

end MailComposer.Json
