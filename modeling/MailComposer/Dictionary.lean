/-!
Dictionaries: entries in the order of their keys, no key twice. Main statements: reading after an
insertion gives the new value at its key and the old one elsewhere, and two dictionaries that read
alike are equal.
-/
namespace MailComposer

/-- A strict order in which any two keys compare. -/
class KeyOrder (κ : Type) [LT κ] : Prop where
  irrefl : ∀ a : κ, ¬ a < a
  trans : ∀ {a b c : κ}, a < b → b < c → a < c
  connected : ∀ {a b : κ}, ¬ a < b → a ≠ b → b < a

/-- Texts by their code points. -/
instance : KeyOrder String where
  irrefl := String.lt_irrefl
  trans := String.lt_trans
  connected {a b} h hne := by
    rcases Decidable.em (b < a) with hb | hb
    · exact hb
    · exact absurd (String.le_antisymm (String.not_lt.mp hb) (String.not_lt.mp h)) hne

/-- Rows of keys, like words in a dictionary. -/
instance {κ : Type} [LT κ] [DecidableLT κ] [DecidableEq κ] [KeyOrder κ] : KeyOrder (List κ) where
  irrefl l :=
    have : Std.Irrefl (α := κ) (· < ·) := ⟨KeyOrder.irrefl⟩
    List.lt_irrefl l
  trans h h' :=
    have : Trans (α := κ) (β := κ) (γ := κ) (· < ·) (· < ·) (· < ·) := ⟨KeyOrder.trans⟩
    List.lt_trans h h'
  connected {a b} h hne := by
    have : Std.Trichotomous (α := κ) (· < ·) := ⟨fun a b hab hba =>
      Decidable.byContradiction fun hne => hba (KeyOrder.connected hab hne)⟩
    rcases Decidable.em (b < a) with hb | hb
    · exact hb
    · exact absurd (List.le_antisymm (List.not_lt.mp hb) (List.not_lt.mp h)) hne

namespace Entries

variable {κ α : Type} [LT κ] [DecidableLT κ] [DecidableEq κ]

/-- Puts a value under a key, in place of an old one. -/
def insert (k : κ) (v : α) : List (κ × α) → List (κ × α)
  | [] => [(k, v)]
  | e :: es =>
    if k < e.1 then (k, v) :: e :: es
    else if k = e.1 then (k, v) :: es
    else e :: insert k v es

def get? (k : κ) : List (κ × α) → Option α
  | [] => none
  | e :: es => if k = e.1 then some e.2 else get? k es

def Ascending (es : List (κ × α)) : Prop := es.Pairwise fun a b => a.1 < b.1

theorem mem_of_mem_insert {k : κ} {v : α} {es : List (κ × α)} {e : κ × α}
    (h : e ∈ insert k v es) : e = (k, v) ∨ e ∈ es := by
  induction es with
  | nil => exact .inl (List.mem_singleton.mp h)
  | cons d es ih =>
    simp only [insert] at h
    split at h
    · exact List.mem_cons.mp h
    · split at h
      · exact (List.mem_cons.mp h).imp id (List.mem_cons_of_mem d)
      · rcases List.mem_cons.mp h with h | h
        · exact .inr (h ▸ List.mem_cons_self)
        · exact (ih h).imp id (List.mem_cons_of_mem d)

theorem get?_insert (k k' : κ) (v : α) (es : List (κ × α)) :
    get? k' (insert k v es) = if k' = k then some v else get? k' es := by
  induction es with
  | nil => rfl
  | cons d es ih =>
    simp only [insert]
    split
    · rfl
    · split
      · next heq =>
        subst heq
        simp only [get?]
        split <;> rfl
      · next hne =>
        simp only [get?, ih]
        split
        · next h => rw [if_neg (h ▸ Ne.symm hne)]
        · rfl

variable [KeyOrder κ]

theorem Ascending.insert {es : List (κ × α)} (h : Ascending es) (k : κ) (v : α) :
    Ascending (insert k v es) := by
  induction es with
  | nil => exact List.pairwise_singleton ..
  | cons d es ih =>
    have ⟨hd, hes⟩ := List.pairwise_cons.mp h
    simp only [Entries.insert]
    split
    · next hk =>
      refine List.pairwise_cons.mpr ⟨fun e he => ?_, h⟩
      rcases List.mem_cons.mp he with rfl | he
      · exact hk
      · exact KeyOrder.trans hk (hd e he)
    · next hk =>
      split
      · next heq => exact List.pairwise_cons.mpr ⟨fun e he => heq ▸ hd e he, hes⟩
      · next hne =>
        refine List.pairwise_cons.mpr ⟨fun e he => ?_, ih hes⟩
        rcases mem_of_mem_insert he with rfl | he
        · exact KeyOrder.connected hk hne
        · exact hd e he

omit [DecidableLT κ] in
theorem Ascending.get?_eq_some_iff {es : List (κ × α)} (h : Ascending es) {k : κ} {v : α} :
    get? k es = some v ↔ (k, v) ∈ es := by
  induction es with
  | nil => simp [get?]
  | cons d es ih =>
    have ⟨hd, hes⟩ := List.pairwise_cons.mp h
    simp only [get?]
    split
    · next heq =>
      subst heq
      refine ⟨fun hv => List.mem_cons.mpr (.inl (by rw [← Option.some.inj hv])), fun hm => ?_⟩
      rcases List.mem_cons.mp hm with hm | hm
      · rw [← hm]
      · exact absurd (hd _ hm) (KeyOrder.irrefl _)
    · next hne =>
      refine (ih hes).trans ⟨List.mem_cons_of_mem d, fun hm => ?_⟩
      rcases List.mem_cons.mp hm with rfl | hm
      · exact absurd rfl hne
      · exact hm

omit [DecidableLT κ] in
theorem Ascending.ext {es ds : List (κ × α)} (he : Ascending es) (hd : Ascending ds)
    (h : ∀ k, get? k es = get? k ds) : es = ds := by
  have mem (p : κ × α) : p ∈ es ↔ p ∈ ds := by
    rw [← he.get?_eq_some_iff, ← hd.get?_eq_some_iff, h]
  induction es generalizing ds with
  | nil =>
    cases ds with
    | nil => rfl
    | cons d ds => exact absurd ((mem d).mpr List.mem_cons_self) List.not_mem_nil
  | cons e es ih =>
    cases ds with
    | nil => exact absurd ((mem e).mp List.mem_cons_self) List.not_mem_nil
    | cons d ds =>
      have ⟨he1, he2⟩ := List.pairwise_cons.mp he
      have ⟨hd1, hd2⟩ := List.pairwise_cons.mp hd
      have hed : e = d := by
        rcases List.mem_cons.mp ((mem e).mp List.mem_cons_self) with h1 | h1
        · exact h1
        · rcases List.mem_cons.mp ((mem d).mpr List.mem_cons_self) with h2 | h2
          · exact h2.symm
          · exact absurd (KeyOrder.trans (hd1 e h1) (he1 d h2)) (KeyOrder.irrefl _)
      subst hed
      have mem' (p : κ × α) : p ∈ es ↔ p ∈ ds := by
        have hp := mem p
        rw [List.mem_cons, List.mem_cons] at hp
        constructor
        · intro hes
          rcases hp.mp (.inr hes) with rfl | hds
          · exact absurd (he1 _ hes) (KeyOrder.irrefl _)
          · exact hds
        · intro hds
          rcases hp.mpr (.inr hds) with rfl | hes
          · exact absurd (hd1 _ hds) (KeyOrder.irrefl _)
          · exact hes
      rw [ih he2 hd2 (fun k => ?_) mem']
      exact Option.ext fun v => by
        rw [Ascending.get?_eq_some_iff he2, Ascending.get?_eq_some_iff hd2, mem']

end Entries

structure Dictionary (κ α : Type) [LT κ] where
  entries : List (κ × α)
  ascending : Entries.Ascending entries

namespace Dictionary

variable {κ α : Type} [LT κ]

def empty : Dictionary κ α := ⟨[], List.Pairwise.nil⟩

instance : Inhabited (Dictionary κ α) := ⟨empty⟩

variable [DecidableEq κ]

instance [DecidableEq α] : DecidableEq (Dictionary κ α) := fun a b =>
  decidable_of_iff (a.entries = b.entries)
    ⟨fun h => by cases a; cases b; simp_all, fun h => h ▸ rfl⟩

def get? (d : Dictionary κ α) (k : κ) : Option α := Entries.get? k d.entries

@[simp] theorem get?_empty (k : κ) : (empty : Dictionary κ α).get? k = none := rfl

variable [DecidableLT κ] [KeyOrder κ]

def insert (d : Dictionary κ α) (k : κ) (v : α) : Dictionary κ α :=
  ⟨Entries.insert k v d.entries, d.ascending.insert k v⟩

def erase (d : Dictionary κ α) (k : κ) : Dictionary κ α :=
  ⟨d.entries.filter fun e => e.1 ≠ k, d.ascending.filter _⟩

/-- The entries whose value passes a test. -/
def filter (d : Dictionary κ α) (keep : α → Bool) : Dictionary κ α :=
  ⟨d.entries.filter fun e => keep e.2, d.ascending.filter _⟩

/-- The entries whose key passes a test. -/
def restrict (d : Dictionary κ α) (keep : κ → Bool) : Dictionary κ α :=
  ⟨d.entries.filter fun e => keep e.1, d.ascending.filter _⟩

/-- Inserts each entry in turn, so that later ones win. -/
def insertAll (d : Dictionary κ α) (new : List (κ × α)) : Dictionary κ α :=
  new.foldl (fun d e => d.insert e.1 e.2) d

def size (d : Dictionary κ α) : Nat := d.entries.length

def isEmpty (d : Dictionary κ α) : Bool := d.entries.isEmpty

omit [DecidableLT κ] in
theorem ext_get? {a b : Dictionary κ α} (h : ∀ k, a.get? k = b.get? k) : a = b := by
  cases a; cases b
  next ha _ hb => congr; exact ha.ext hb h

theorem get?_insert (d : Dictionary κ α) (k k' : κ) (v : α) :
    (d.insert k v).get? k' = if k' = k then some v else d.get? k' :=
  Entries.get?_insert k k' v d.entries

omit [DecidableLT κ] in
theorem get?_eq_some_iff {d : Dictionary κ α} {k : κ} {v : α} :
    d.get? k = some v ↔ (k, v) ∈ d.entries :=
  d.ascending.get?_eq_some_iff

omit [DecidableLT κ] in
theorem get?_erase (d : Dictionary κ α) (k k' : κ) :
    (d.erase k).get? k' = if k' = k then none else d.get? k' := by
  refine Option.ext fun v => ?_
  rw [get?_eq_some_iff]
  by_cases h : k' = k
  · simp [erase, h]
  · rw [if_neg h, get?_eq_some_iff]
    simp [erase, h]

end Dictionary

end MailComposer
