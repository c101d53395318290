import MailComposer.Proofs.Json.Depth

/-!
Records read from the members of an object: what each member does to the fields that are set, and
what a record is when no member is wrong.
-/
namespace MailComposer.Json.Field

variable {ι σ α : Type} {m : Medium} {d : Nat}

theorem read_required {name : String} {read : ι → Decoded α} {set : α → σ → σ} {i : ι} {a : α}
    (h : read i = m.within d a) :
    (required name read set).read i = m.within d (set a) := by
  simp only [required, h, Medium.within_map]

theorem read_optional {name : String} {read : ι → Decoded α} {set : α → σ → σ} {i : ι} {a : α}
    (h : read i = m.within d a) :
    (optional name read set).read i = m.within d (set a) := by
  simp only [optional, h, Medium.within_map]

/-- A member under the name of a field that is not set yet. -/
theorem takeMembers_known {fields : List (Field ι σ)} {skip : ι → Decoded Unit} {k : String}
    {f : Field ι σ} {seen : List String} (hf : fields.find? (·.name == k) = some f)
    (hk : k ∉ seen) {e : Nat} {i : ι} {set : σ → σ}
    (hi : f.read i = m.within d set) {rest : List (Option String × ι)} {s : σ}
    {r : List String × σ} (hr : takeMembers fields skip rest (k :: seen) (set s) = m.within e r) :
    takeMembers fields skip ((some k, i) :: rest) seen s = m.within (max d e) r := by
  rw [takeMembers, hf]
  simp only [if_neg hk, hi]
  exact Medium.within_bind hr

theorem takeMembers_unknown {fields : List (Field ι σ)} {skip : ι → Decoded Unit} {k : String}
    (hf : ∀ f ∈ fields, f.name ≠ k) {e : Nat} {i : ι}
    (hi : skip i = m.within d ()) {rest : List (Option String × ι)} {seen : List String} {s : σ}
    {r : List String × σ} (hr : takeMembers fields skip rest seen s = m.within e r) :
    takeMembers fields skip ((some k, i) :: rest) seen s = m.within (max d e) r := by
  have hn : fields.find? (·.name == k) = none :=
    List.find?_eq_none.mpr fun f hm => by simp [hf f hm]
  rw [takeMembers, hn]
  simp only [hi]
  exact Medium.within_bind hr

/-- A record whose members are all taken, none that it needs being left out. -/
theorem ofMembers_taken {fields : List (Field ι σ)} {skip : ι → Decoded Unit}
    {members : List (Option String × ι)} {start s : σ}
    (seen : List String) (ht : takeMembers fields skip members [] start = m.within d (seen, s))
    (hs : ∀ f ∈ fields, f.needed = true → f.name ∈ seen) :
    ofMembers fields skip members none start = m.within d s := by
  have hn : fields.find? (fun f => f.needed && !seen.contains f.name) = none := by
    apply List.find?_eq_none.mpr
    intro f hf
    cases hd : f.needed with
    | false => simp
    | true => simpa using hs f hf hd
  rw [ofMembers, ht]
  refine Medium.within_bind_ok ?_
  simp only [hn]
  rfl

end MailComposer.Json.Field
