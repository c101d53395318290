import MailComposer.Proofs.Json.Order
import MailComposer.Proofs.Json.Spelling
import MailComposer.Proofs.Style.Values
import MailComposer.Style.Json

/-!
Style maps read from members, and from what they are written as themselves.
-/
namespace MailComposer.StyleMap
open Json (Medium Reading)

private theorem value?_setScalar (s : StyleMap) (e : String × Json) (key : String) :
    (s.setScalar e).value? key =
      if key = e.1 then (scalar? e.2).or (s.value? key) else s.value? key := by
  unfold setScalar
  split
  · next value hv => rw [value?_setKey, hv]; rfl
  · next hv => rw [hv, Option.none_or, ite_self]

private theorem value?_foldl_setScalar {es : List (String × Json)} (hes : (es.map Prod.fst).Nodup)
    (s : StyleMap) (key : String) :
    (es.foldl setScalar s).value? key =
      ((Entries.get? key es).bind scalar?).or (s.value? key) := by
  induction es generalizing s with
  | nil => rfl
  | cons e es ih =>
    obtain ⟨he, hes⟩ := List.nodup_cons.mp hes
    rw [List.foldl_cons, ih hes, value?_setScalar, Entries.get?]
    by_cases h : key = e.1
    · rw [if_pos h, if_pos h, h, Entries.get?_of_not_mem he]
      rfl
    · rw [if_neg h, if_neg h]

/-- The last member under a key decides. -/
theorem value?_ofMembers (members : List (String × Json)) (key : String) :
    (ofMembers members).value? key =
      (Entries.get? key members.reverse).bind scalar? := by
  have none : Entries.Ascending ([] : List (String × Json)) := .nil
  have sorted := none.foldl_insert members
  rw [ofMembers, value?_foldl_setScalar sorted.nodup_keys, Entries.get?_foldl_insert,
    value?_empty, Option.or_none]
  exact congrArg (·.bind scalar?) Option.or_none

def members (s : StyleMap) : List (String × Json) := s.entries.map fun e => (e.1, .string e.2)

theorem nodup_keys_members (s : StyleMap) : (s.members.map Prod.fst).Nodup := by
  rw [members, List.map_map]
  exact s.nodup_keys_entries

/-- The members of a style map may come in any order. -/
theorem ofMembers_perm {s : StyleMap} {ms : List (String × Json)} (hp : ms.Perm s.members) :
    ofMembers ms = s := by
  apply ext_value?
  intro key
  have hm : Entries.get? key s.members = (s.value? key).map Json.string := by
    rw [← get?_entries]
    exact Entries.get?_map (fun _ _ h => h) Json.string key s.entries
  have hp : s.members.Perm ms.reverse := hp.symm.trans ms.reverse_perm.symm
  rw [value?_ofMembers, ← Entries.get?_perm hp s.nodup_keys_members, hm]
  cases s.value? key <;> rfl

private theorem depthMembers_strings (es : List (String × String)) :
    Json.depthMembers (es.map fun e => (e.1, .string e.2)) = 0 := by
  induction es with
  | nil => rfl
  | cons e es ih =>
    change max 0 (Json.depthMembers (es.map fun e => (e.1, .string e.2))) = 0
    rw [ih, Nat.max_self]

theorem depth_toJson (s : StyleMap) : s.toJson.depth = 1 := by
  rw [toJson, Json.depth, depthMembers_strings]

theorem plain_toJson (s : StyleMap) : s.toJson.Plain := by
  have all (es : List (String × String)) :
      Json.PlainMembers (es.map fun e => (e.1, .string e.2)) := by
    induction es with
    | nil => trivial
    | cons e es ih => exact ⟨trivial, ih⟩
  exact all s.entries

theorem read_toJson (m : Medium) (s : StyleMap) :
    read m (.ofJson s.toJson) = m.within s.toJson.depth s := by
  rw [depth_toJson]
  apply Medium.enter_bind
  intro m
  rw [Reading.jsonMembers_ofMembers, depthMembers_strings, Medium.within_zero,
    Medium.within_zero]
  exact congrArg Except.ok (ofMembers_perm (.refl s.members))

theorem read_reordered {g : Json → Json} (hg : Json.Reorders g) (s : StyleMap) :
    read .held (.ofJson (g s.toJson)) = .ok s := by
  obtain ⟨ms, hms, hp⟩ := hg.object s.nodup_keys_members
  have hv : s.members.map (fun e => (e.1, g e.2)) = s.members := by
    rw [members, List.map_map]
    exact List.map_congr_left fun e _ => congrArg (e.1, ·) (hg.string e.2)
  rw [hv] at hp
  change read .held (.ofJson (g (.object s.members))) = _
  rw [hms]
  change (Reading.jsonMembers .held (Reading.ofMembers ms) >>= fun ms => .ok (ofMembers ms)) = _
  rw [Reading.jsonMembers_ofMembers]
  exact congrArg Except.ok (ofMembers_perm hp)

end MailComposer.StyleMap
