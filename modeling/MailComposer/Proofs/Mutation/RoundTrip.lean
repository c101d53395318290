import MailComposer.Mutation.Json
import MailComposer.Proofs.Json.ReadBack
import MailComposer.Proofs.Style.ReadBack

/-!
Mutations written in JSON and read again: the same mutation, from a text as well as from a value. A
reader of values meets the members of an object in the order of their keys, so that the name of the
operation stands among the fields.
-/
namespace MailComposer

open Json (Decoded Field Medium Reading Reorders)
open Json.Field (Apart Writes apart)

namespace Json.Reading
variable {α : Type} {g : Json → Json}

/-- What is there is not taken for missing, where a decoder does not take `null`. -/
theorem optional_eq_ok {read : Reading → Decoded α} {r : Reading} {a : α}
    (hn : ∀ a, read .null ≠ .ok a) (h : read r = .ok a) : optional read r = .ok (some a) := by
  cases r with
  | null => exact absurd h (hn a)
  | _ => exact congrArg (Except.map some) h

theorem text_reordered (hg : Reorders g) (s : String) :
    (Reading.ofJson (g (.string s))).text = .ok s := by
  rw [hg.string]
  rfl

theorem byte_reordered (hg : Reorders g) (n : UInt8) :
    (Reading.ofJson (g (.nat n.toNat))).byte = .ok n := by
  rw [Json.nat, hg.number]
  exact byte_ofJson n

theorem index_reordered (hg : Reorders g) (i : UInt64) :
    (Reading.ofJson (g (.index i))).index = .ok i := by
  have hi : (Reading.ofJson (.index i)).natural UInt64.size "usize" = .ok i.toNat :=
    if_pos i.toNat_lt
  rw [Json.index, Json.nat, hg.number]
  exact (congrArg (Except.map UInt64.ofNat) hi).trans (congrArg Except.ok UInt64.ofNat_toNat)

theorem texts_reordered (hg : Reorders g) (xs : List String) :
    (Reading.ofJson (g (.texts xs))).texts .held = .ok xs := by
  rw [hg.texts]
  exact texts_ofJson .held xs

end Json.Reading

variable {g : Json → Json}

theorem ListKind.read_reordered (hg : Reorders g) (k : ListKind) :
    read .held (.ofJson (g (.string k.tag))) = .ok k := by
  rw [hg.string]
  cases k <;> rfl

theorem Direction.read_reordered (hg : Reorders g) (d : Direction) :
    read .held (.ofJson (g d.toJson)) = .ok d := by
  rw [toJson, hg.string]
  cases d <;> rfl

private theorem Target.apart_fields (m : Medium) : (fields m).Pairwise Apart := by
  simp only [fields, List.pairwise_cons, List.forall_mem_cons, List.not_mem_nil, IsEmpty.forall_iff,
    implies_true, List.Pairwise.nil, and_true]
  repeat' with_reducible apply And.intro
  all_goals exact apart (by decide) fun _ _ _ => rfl

theorem Target.read_reordered (hg : Reorders g) (t : Target) :
    read .held (.ofJson (g t.toJson)) = .ok t := by
  have hi (i : UInt64) := Reading.optional_eq_ok nofun (Reading.index_reordered hg i)
  refine Writes.record hg ?_ (apart_fields .held) _
  rw [List.append_assoc, ← List.append_nil (Json.memberOf "index" .index t.index)]
  refine .memberOf (fun s => Reading.optional_eq_ok nofun (Reading.text_reordered hg s)) rfl ?_
  refine .memberOf hi rfl ?_
  exact .memberOf hi rfl (.nil _)

private theorem Patch.apart_fields (m : Medium) : (fields m).Pairwise Apart := by
  simp only [fields, List.pairwise_cons, List.forall_mem_cons, List.not_mem_nil, IsEmpty.forall_iff,
    implies_true, List.Pairwise.nil, and_true]
  repeat' with_reducible apply And.intro
  all_goals exact apart (by decide) fun _ _ _ => rfl

theorem Patch.read_reordered (hg : Reorders g) (p : Patch) :
    read .held (.ofJson (g p.toJson)) = .ok p := by
  have ht (s : String) := Reading.optional_eq_ok nofun (Reading.text_reordered hg s)
  have hts (xs : List String) := Reading.optional_eq_ok nofun (Reading.texts_reordered hg xs)
  refine Writes.record hg ?_ (apart_fields .held) _
  simp only [List.append_assoc]
  rw [← List.append_nil (Json.memberOf "styles" StyleMap.toJson p.styles)]
  refine .memberOf ht rfl ?_
  refine .memberOf (fun n => Reading.optional_eq_ok nofun (Reading.byte_reordered hg n)) rfl ?_
  refine .memberOf ht rfl <| .memberOf ht rfl <| .memberOf ht rfl ?_
  refine .memberOf ht rfl <| .memberOf ht rfl ?_
  refine .memberOf (fun k => Reading.optional_eq_ok nofun (ListKind.read_reordered hg k)) rfl ?_
  refine .memberOf hts rfl <| .memberOf hts rfl ?_
  exact .memberOf (fun s => Reading.optional_eq_ok nofun (s.read_reordered hg)) rfl (.nil _)

private theorem Ref.apart_positionFields (m : Medium) : (positionFields m).Pairwise Apart := by
  simp only [positionFields, List.pairwise_cons, List.forall_mem_cons, List.not_mem_nil,
    IsEmpty.forall_iff, implies_true, List.Pairwise.nil, and_true]
  repeat' with_reducible apply And.intro
  all_goals exact apart (by decide) fun _ _ _ => rfl

theorem Ref.read_reordered (hg : Reorders g) (r : Ref) :
    read .held (.ofJson (g r.toJson)) = .ok r := by
  cases r with
  | named i =>
    rw [toJson, hg.single]
    exact congrArg (Except.map Ref.named) (Reading.text_reordered hg i)
  | position index parent column =>
    have hi (i : UInt64) := Reading.optional_eq_ok nofun (Reading.index_reordered hg i)
    have hw : Writes g (positionFields .held) (("index", .index index) ::
        (Json.memberOf "parentId" .string parent ++ Json.memberOf "columnIndex" .index column))
        (0, none, none) (index, parent, column) := by
      rw [← List.append_nil (Json.memberOf "columnIndex" .index column)]
      refine .field (Reading.index_reordered hg index) ?_
      refine .memberOf (fun s => Reading.optional_eq_ok nofun (Reading.text_reordered hg s)) rfl ?_
      exact .memberOf hi rfl (.nil _)
    obtain ⟨ms, hms, hp⟩ := hg.object (hw.nodup_keys (apart_positionFields .held))
    have hread := hw.ofMembers_perm (apart_positionFields .held) Reading.skip hp
    rw [toJson, hg.single, hms]
    exact congrArg (· >>= fun p => .ok (Ref.position p.1 p.2.1 p.2.2)) hread

namespace Mutation

variable {m : Medium}

private theorem splitMembers_cons {k : String} (hk : k ≠ "op") (j : Json) {d : Nat}
    {ms held : List (Option String × Reading)} {op found : Option Operation}
    (h : splitMembers m ms op = m.within d (found, held)) :
    splitMembers m ((some k, .ofJson j) :: ms) op =
      m.within (max j.depth d) (found, (some k, .ofJson j) :: held) := by
  have hs : splitMembers m ((some k, .ofJson j) :: ms) op =
      ((Reading.ofJson j).hold m >>= fun r =>
        splitMembers m ms op >>= fun s => .ok (s.1, (some k, r) :: s.2)) := by
    cases op <;> exact if_neg hk
  rw [hs, Reading.hold_ofJson, h]
  exact Medium.within_bind (Medium.within_map m d _ _)

private theorem splitMembers_fields (op : Option Operation) {ms : List (String × Json)}
    (h : "op" ∉ ms.map Prod.fst) :
    splitMembers m (Reading.ofMembers ms) op =
      m.within (Json.depthMembers ms) (op, Reading.ofMembers ms) := by
  induction ms with
  | nil => exact (Medium.within_zero m _).symm
  | cons e ms ih =>
    obtain ⟨he, hms⟩ := not_or.mp (mt List.mem_cons.mpr h)
    exact splitMembers_cons (Ne.symm he) e.2 (ih hms)

/-- The name of the operation is found wherever it stands. -/
private theorem splitMembers_op (o : Operation) {before after : List (String × Json)}
    (hb : "op" ∉ before.map Prod.fst) (ha : "op" ∉ after.map Prod.fst) :
    splitMembers m (Reading.ofMembers (before ++ ("op", .string o.name) :: after)) none =
      m.within (Json.depthMembers (before ++ ("op", .string o.name) :: after))
        (some o, Reading.ofMembers (before ++ after)) := by
  induction before with
  | nil =>
    have ho : Operation.read (.string o.name) = .ok o := by cases o <;> rfl
    have hs : splitMembers m (Reading.ofMembers (("op", .string o.name) :: after)) none =
        (Operation.read (.string o.name) >>= fun op =>
          splitMembers m (Reading.ofMembers after) (some op)) := rfl
    rw [List.nil_append, hs, ho]
    refine (splitMembers_fields (some o) ha).trans (congrArg (m.within · _) ?_)
    exact (Nat.zero_max _).symm
  | cons e before ih =>
    obtain ⟨he, hb⟩ := not_or.mp (mt List.mem_cons.mpr hb)
    exact splitMembers_cons (Ne.symm he) e.2 (ih hb)

/-- The members of an object with an operation among them, whatever their order. -/
private theorem read_members {o : Operation} {fields ms : List (String × Json)}
    {mutation : Mutation}
    (hn : "op" ∉ fields.map Prod.fst) (hp : ms.Perm (("op", .string o.name) :: fields))
    (h : ∀ held : List (String × Json), held.Perm fields →
      readFields (.object (Reading.ofMembers held) none) o = .ok mutation) :
    read m (.ofJson (.object ms)) = m.within (Json.object ms).depth mutation := by
  obtain ⟨before, after, rfl⟩ := List.append_of_mem (hp.mem_iff.mpr List.mem_cons_self)
  have hrest : (before ++ after).Perm fields := (List.perm_middle.symm.trans hp).cons_inv
  have hkeys : "op" ∉ (before ++ after).map Prod.fst :=
    fun hm => hn ((hrest.map Prod.fst).mem_iff.mp hm)
  rw [List.map_append, List.mem_append, not_or] at hkeys
  have hs : split m (.ofJson (.object (before ++ ("op", .string o.name) :: after))) =
      m.within (Json.object (before ++ ("op", .string o.name) :: after)).depth
        (o, .object (Reading.ofMembers (before ++ after)) none) := by
    refine Medium.enter_bind fun m => ?_
    rw [splitMembers_op o hkeys.1 hkeys.2]
    exact Medium.within_bind_ok rfl
  rw [read, hs]
  exact Medium.within_bind_ok (h _ hrest)

private theorem read_operation (hg : Reorders g) {o : Operation} {fields : List (String × Json)}
    {mutation : Mutation} (hn : ((("op", .string o.name) :: fields).map Prod.fst).Nodup)
    (h : ∀ held : List (String × Json), held.Perm (fields.map fun e => (e.1, g e.2)) →
      readFields (.object (Reading.ofMembers held) none) o = .ok mutation) :
    read m (.ofJson (g (.object (("op", .string o.name) :: fields)))) =
      m.within (g (.object (("op", .string o.name) :: fields))).depth mutation := by
  obtain ⟨ms, hms, hp⟩ := hg.object hn
  rw [List.map_cons, hg.string] at hp
  rw [hms]
  refine read_members ?_ hp h
  rw [List.map_map]
  exact (List.nodup_cons.mp hn).1

private theorem decoded_record {σ : Type} {fields : Medium → List (Field Reading σ)}
    {expected : String} {start s : σ} {ms held : List (String × Json)} (f : σ → Mutation)
    (hp : held.Perm (ms.map fun e => (e.1, g e.2))) (hc : (fields .held).Pairwise Apart)
    (hw : Writes g (fields .held) ms start s) :
    (Reading.record .held expected fields start (.object (Reading.ofMembers held) none) >>=
      fun s => .ok (f s)) = .ok (f s) := by
  rw [hw.record_perm hc hp]
  rfl

/-- A mutation is read from what it is written as, however the members of objects are ordered. -/
theorem read_reordered (hg : Reorders g) (m : Medium) (mutation : Mutation) :
    read m (.ofJson (g mutation.toJson)) = m.within (g mutation.toJson).depth mutation := by
  cases mutation with
  | add type t =>
    refine read_operation (o := .add) hg
      (by decide : ["op", "componentType", "target"].Nodup) fun held hp => ?_
    refine decoded_record (s := (type, t)) (fun s => .add s.1 s.2) hp ?_ ?_
    · exact List.pairwise_pair.mpr (apart (by decide) fun _ _ _ => rfl)
    · exact .field (Reading.text_reordered hg type) (.field (t.read_reordered hg) (.nil _))
  | update id p =>
    refine read_operation (o := .update) hg
      (by decide : ["op", "id", "patch"].Nodup) fun held hp => ?_
    refine decoded_record (s := (id, p)) (fun s => .update s.1 s.2) hp ?_ ?_
    · exact List.pairwise_pair.mpr (apart (by decide) fun _ _ _ => rfl)
    · exact .field (Reading.text_reordered hg id) (.field (p.read_reordered hg) (.nil _))
  | delete id =>
    refine read_operation (o := .delete) hg (by decide : ["op", "id"].Nodup) fun held hp => ?_
    refine decoded_record .delete hp ?_ ?_
    · exact List.pairwise_singleton _ _
    · exact .field (Reading.text_reordered hg id) (.nil _)
  | move r d =>
    refine read_operation (o := .move) hg
      (by decide : ["op", "target", "direction"].Nodup) fun held hp => ?_
    refine decoded_record (s := (r, d)) (fun s => .move s.1 s.2) hp ?_ ?_
    · exact List.pairwise_pair.mpr (apart (by decide) fun _ _ _ => rfl)
    · exact .field (r.read_reordered hg) (.field (d.read_reordered hg) (.nil _))
  | duplicate r =>
    refine read_operation (o := .duplicate) hg
      (by decide : ["op", "target"].Nodup) fun held hp => ?_
    refine decoded_record .duplicate hp ?_ ?_
    · exact List.pairwise_singleton _ _
    · exact .field (r.read_reordered hg) (.nil _)
  | relocate id t =>
    refine read_operation (o := .relocate) hg
      (by decide : ["op", "id", "target"].Nodup) fun held hp => ?_
    refine decoded_record (s := (id, t)) (fun s => .relocate s.1 s.2) hp ?_ ?_
    · exact List.pairwise_pair.mpr (apart (by decide) fun _ _ _ => rfl)
    · exact .field (Reading.text_reordered hg id) (.field (t.read_reordered hg) (.nil _))

end Mutation

open Json (shallow_memberOf shallow_string shallow_index shallow_texts)

private theorem Target.shallow_toJson (t : Target) : t.toJson.Shallow 1 := by
  refine .object (.append (.append ?_ ?_) ?_)
  · exact shallow_memberOf _ _ shallow_string
  · exact shallow_memberOf _ _ shallow_index
  · exact shallow_memberOf _ _ shallow_index

private theorem Ref.shallow_toJson (r : Ref) : r.toJson.Shallow 2 := by
  cases r with
  | named i => exact .object (.cons (shallow_string i) .nil _)
  | position index parent column =>
    refine .object (.cons (.object (.cons (shallow_index index) (.append ?_ ?_) _)) .nil _)
    · exact shallow_memberOf _ _ shallow_string
    · exact shallow_memberOf _ _ shallow_index

private theorem Patch.shallow_toJson (p : Patch) : p.toJson.Shallow 2 := by
  have text (k : String) (v : Option String) : Json.ShallowMembers 1 (Json.memberOf k .string v) :=
    shallow_memberOf k v shallow_string
  refine .object ?_
  repeat' apply Json.ShallowMembers.append
  any_goals exact text _ _
  · exact shallow_memberOf _ _ fun n => ⟨Nat.lt_trans n.toNat_lt (by decide), Nat.zero_le 1⟩
  · exact shallow_memberOf _ _ fun k => shallow_string k.tag
  · exact shallow_memberOf _ _ shallow_texts
  · exact shallow_memberOf _ _ shallow_texts
  · exact shallow_memberOf _ _ fun s => ⟨s.plain_toJson, Nat.le_of_eq s.depth_toJson⟩

namespace Mutation

theorem shallow_toJson (mutation : Mutation) : mutation.toJson.Shallow Json.nestingLimit := by
  have target (t : Target) : t.toJson.Shallow 2 := t.shallow_toJson.mono (by decide)
  suffices mutation.toJson.Shallow 3 from this.mono (by decide)
  cases mutation with
  | add type t =>
    refine .object (.cons (shallow_string _) (.cons (shallow_string type) ?_ _) _)
    exact .cons (target t) .nil _
  | update id p =>
    refine .object (.cons (shallow_string _) (.cons (shallow_string id) ?_ _) _)
    exact .cons p.shallow_toJson .nil _
  | delete id => exact .object (.cons (shallow_string _) (.cons (shallow_string id) .nil _) _)
  | move r d =>
    refine .object (.cons (shallow_string _) (.cons r.shallow_toJson ?_ _) _)
    exact .cons (shallow_string d.name) .nil _
  | duplicate r => exact .object (.cons (shallow_string _) (.cons r.shallow_toJson .nil _) _)
  | relocate id t =>
    refine .object (.cons (shallow_string _) (.cons (shallow_string id) ?_ _) _)
    exact .cons (target t) .nil _

/-- Every mutation comes back unchanged from its JSON: from the value, from either of its texts, and
from the value that such a text is parsed to. -/
theorem json_round_trip (mutation : Mutation) :
    ofJson? mutation.toJson = .ok mutation ∧
      ∀ s, s = mutation.toJson.compact ∨ s = mutation.toJson.pretty →
        ofText? s = .ok mutation ∧ (Json.ofText? s >>= ofJson?) = .ok mutation := by
  have settled := read_reordered Json.reorders_settled .value mutation
  refine ⟨settled, fun s hs => ⟨?_, ?_⟩⟩
  · exact Json.decodeText_eq_ok mutation.shallow_toJson hs
      (read_reordered Json.reorders_id (.text Json.nestingLimit) mutation)
  · have parsed : Json.ofText? s = .ok mutation.toJson.settled :=
      congrArg (Except.map Json.settled) (Json.decodeText_eq_ok mutation.shallow_toJson hs
        (Reading.json_ofJson (.text Json.nestingLimit) mutation.toJson))
    rw [parsed]
    change ofJson? mutation.toJson.settled = _
    rw [ofJson?, Json.decodeJson, Json.settled_settled]
    exact settled

end Mutation

end MailComposer
