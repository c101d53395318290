import Mathlib.Data.List.Pairwise
import MailComposer.Proofs.Dictionary
import MailComposer.Proofs.Json.Records

/-!
Values in which the members of objects stand in another order, as in the settled form. A record that
is read from its members in one order is read from them in any.
-/
namespace MailComposer.Json

private theorem settledItems_eq_map (items : List Json) :
    settledItems items = items.map settled := by
  induction items with
  | nil => rfl
  | cons j rest ih => rw [settledItems, ih, List.map_cons]

private theorem settledMembers_eq_foldl (ms done : List (String × Json)) :
    settledMembers ms done =
      (ms.map fun e => (e.1, e.2.settled)).foldl (fun es e => Entries.insert e.1 e.2 es) done := by
  induction ms generalizing done with
  | nil => rfl
  | cons e ms ih => rw [settledMembers, ih, List.map_cons, List.foldl_cons]

/-- Members that are in order and settled themselves. -/
private theorem settledMembers_of_settled {ms : List (String × Json)} (ha : Entries.Ascending ms)
    (h : ∀ e ∈ ms, e.2.settled = e.2) : settledMembers ms [] = ms := by
  have hm : (ms.map fun e => (e.1, e.2.settled)) = ms := by
    refine (List.map_congr_left fun e he => ?_).trans (List.map_id ms)
    rw [h e he, id]
  rw [settledMembers_eq_foldl, hm, ha.foldl_insert_self]

private theorem mem_settledMembers {e : String × Json} {ms done : List (String × Json)}
    (h : e ∈ settledMembers ms done) : (∃ d ∈ ms, e.2 = d.2.settled) ∨ e ∈ done := by
  induction ms generalizing done with
  | nil => exact .inr h
  | cons d ms ih =>
    rcases ih h with ⟨d', hd, he⟩ | h
    · exact .inl ⟨d', List.mem_cons_of_mem d hd, he⟩
    · rcases Entries.mem_of_mem_insert h with rfl | h
      · exact .inl ⟨d, List.mem_cons_self, rfl⟩
      · exact .inr h

private theorem ascending_settledMembers (ms : List (String × Json)) :
    Entries.Ascending (settledMembers ms []) := by
  have hnil : Entries.Ascending ([] : List (String × Json)) := .nil
  rw [settledMembers_eq_foldl]
  exact hnil.foldl_insert _

mutual

/-- A settled value stays as it is. -/
theorem settled_settled : ∀ j : Json, j.settled.settled = j.settled
  | .null | .bool _ | .number _ | .string _ => rfl
  | .array items => congrArg Json.array (settledItems_settledItems items)
  | .object members => by
    refine congrArg Json.object (settledMembers_of_settled (ascending_settledMembers members) ?_)
    intro e he
    obtain ⟨d, hd, heq⟩ | he := mem_settledMembers he
    · rw [heq, settled_of_mem members d hd]
    · cases he

theorem settledItems_settledItems :
    ∀ items : List Json, settledItems (settledItems items) = settledItems items
  | [] => rfl
  | j :: rest => by
    rw [settledItems, settledItems, settled_settled j, settledItems_settledItems rest]

private theorem settled_of_mem :
    ∀ (ms : List (String × Json)), ∀ e ∈ ms, e.2.settled.settled = e.2.settled
  | (_, j) :: rest, e, he => by
    rcases List.mem_cons.mp he with rfl | he
    · exact settled_settled j
    · exact settled_of_mem rest e he

end

/-- A change of a value that leaves scalars alone and only brings the members of objects, where no
key repeats, into another order. -/
structure Reorders (g : Json → Json) : Prop where
  string (s : String) : g (.string s) = .string s
  number (n : Number) : g (.number n) = .number n
  array (items : List Json) : g (.array items) = .array (items.map g)
  object {ms : List (String × Json)} (hn : (ms.map Prod.fst).Nodup) :
    ∃ ms', g (.object ms) = .object ms' ∧ ms'.Perm (ms.map fun e => (e.1, g e.2))

theorem reorders_id : Reorders fun j => j where
  string _ := rfl
  number _ := rfl
  array items := by rw [List.map_id']
  object {ms} _ := ⟨ms, rfl, by rw [List.map_id']⟩

theorem reorders_settled : Reorders settled where
  string _ := rfl
  number _ := rfl
  array items := congrArg Json.array (settledItems_eq_map items)
  object {ms} hn := by
    have hk : ((ms.map fun e : String × Json => (e.1, e.2.settled)) ++ []).map Prod.fst =
        ms.map Prod.fst := by
      rw [List.append_nil, List.map_map]
      rfl
    have hp := Entries.foldl_insert_perm (hk ▸ hn)
    rw [List.append_nil] at hp
    exact ⟨_, congrArg Json.object (settledMembers_eq_foldl ms []), hp⟩

namespace Reorders
variable {g : Json → Json}

theorem texts (hg : Reorders g) (xs : List String) : g (.texts xs) = .texts xs := by
  rw [Json.texts, hg.array, List.map_map]
  exact congrArg Json.array (List.map_congr_left fun x _ => hg.string x)

/-- The one member of an object stays where it is. -/
theorem single (hg : Reorders g) (k : String) (j : Json) :
    g (.object [(k, j)]) = .object [(k, g j)] := by
  have hn : ([(k, j)].map Prod.fst).Nodup := List.nodup_singleton k
  obtain ⟨ms, hms, hp⟩ := hg.object hn
  rw [hms, List.perm_singleton.mp hp]

end Reorders

namespace Field
variable {σ α β : Type} {fields : List (Field Reading σ)}

/-- Fields of different names that set different parts of the record. -/
def Apart (f f' : Field Reading σ) : Prop :=
  f.name ≠ f'.name ∧ ∀ i i' set set', f.read i = .ok set → f'.read i' = .ok set' →
    ∀ s, set (set' s) = set' (set s)

private theorem exists_of_map_eq_ok {x : Decoded α} {f : α → β} {b : β} (h : x.map f = .ok b) :
    ∃ a, b = f a := by
  cases x with
  | error => cases h
  | ok a => exact ⟨a, (Except.ok.inj h).symm⟩

theorem apart {n n' : String} {b b' : Bool} {read : Reading → Decoded α}
    {read' : Reading → Decoded β} {set : α → σ → σ} {set' : β → σ → σ} (hn : n ≠ n')
    (hs : ∀ v w s, set v (set' w s) = set' w (set v s)) :
    Apart ⟨n, b, fun i => (read i).map set⟩ ⟨n', b', fun i => (read' i).map set'⟩ := by
  refine ⟨hn, fun i i' f f' hf hf' s => ?_⟩
  obtain ⟨v, rfl⟩ := exists_of_map_eq_ok hf
  obtain ⟨w, rfl⟩ := exists_of_map_eq_ok hf'
  exact hs v w s

instance : Std.Symm (@Apart σ) where
  symm _ _ h := ⟨h.1.symm, fun i i' set set' hi hi' s => (h.2 i' i set' set hi' hi s).symm⟩

/-- Members that take the record `s` to `s'`, each under the name of a field and read by it. -/
inductive Sets (fields : List (Field Reading σ)) : List (String × Json) → σ → σ → Prop
  | nil (s : σ) : Sets fields [] s s
  | cons {j : Json} {ms : List (String × Json)} {f : Field Reading σ} {set : σ → σ} {s s' : σ}
      (hf : f ∈ fields) (hr : f.read (.ofJson j) = .ok set) (h : Sets fields ms (set s) s') :
      Sets fields ((f.name, j) :: ms) s s'

/-- The order of the members does not matter. -/
theorem Sets.perm (hc : fields.Pairwise Apart) {ms ms' : List (String × Json)} (hp : ms.Perm ms')
    (hn : (ms.map Prod.fst).Nodup) {s s' : σ} (h : Sets fields ms s s') :
    Sets fields ms' s s' := by
  induction hp generalizing s with
  | nil => exact h
  | cons e _ ih =>
    cases h with
    | cons hf hr h => exact .cons hf hr (ih (List.nodup_cons.mp hn).2 h)
  | swap a b ms =>
    -- Here alone it matters that the two fields set different parts.
    cases h with
    | cons hf hr h =>
      cases h with
      | cons hf' hr' h =>
        refine .cons hf' hr' (.cons hf hr ?_)
        have hne := List.ne_of_not_mem_cons (List.nodup_cons.mp hn).1
        have ha := hc.forall hf hf' fun he => hne (congrArg Field.name he)
        rwa [ha.2 _ _ _ _ hr hr' s]
  | trans hp _ ih ih' => exact ih' ((hp.map Prod.fst).nodup_iff.mp hn) (ih hn h)

private theorem find?_of_mem (hc : fields.Pairwise Apart) {f : Field Reading σ} (hf : f ∈ fields) :
    fields.find? (·.name == f.name) = some f := by
  cases h : fields.find? (·.name == f.name) with
  | none => exact absurd (beq_self_eq_true f.name) (List.find?_eq_none.mp h f hf)
  | some f' =>
    have hname : f'.name = f.name := eq_of_beq (List.find?_some h :)
    by_contra hne
    exact (hc.forall (List.mem_of_find?_eq_some h) hf fun e => hne (congrArg some e)).1 hname

private theorem takeMembers_of_sets (hc : fields.Pairwise Apart) (skip : Reading → Decoded Unit)
    {ms : List (String × Json)} {s s' : σ} (h : Sets fields ms s s')
    (hn : (ms.map Prod.fst).Nodup) {seen : List String} (hd : ∀ k ∈ ms.map Prod.fst, k ∉ seen) :
    takeMembers fields skip (Reading.ofMembers ms) seen s =
      .ok ((ms.map Prod.fst).reverse ++ seen, s') := by
  induction h generalizing seen with
  | nil => rfl
  | @cons j ms f set s s' hf hr _ ih =>
    obtain ⟨hk, hn⟩ := List.nodup_cons.mp hn
    have hd' : ∀ k ∈ ms.map Prod.fst, k ∉ f.name :: seen := by
      intro k hm hs
      rcases List.mem_cons.mp hs with rfl | hs
      · exact hk hm
      · exact hd k (List.mem_cons_of_mem _ hm) hs
    rw [Reading.ofMembers, List.map_cons, List.reverse_cons, List.append_assoc]
    exact takeMembers_known (m := .held) (d := 0) (e := 0) (find?_of_mem hc hf)
      (hd f.name List.mem_cons_self) hr (ih hn hd')

/-- Members in the order of the fields that write them, under `g`; only a field that is not needed
has none. They take the record from its start to its end. -/
inductive Writes (g : Json → Json) :
    List (Field Reading σ) → List (String × Json) → σ → σ → Prop
  | nil (s : σ) : Writes g [] [] s s
  | skip {f : Field Reading σ} {fields : List (Field Reading σ)} {ms : List (String × Json)}
      {s s' : σ} (hf : f.needed = false) (h : Writes g fields ms s s') :
      Writes g (f :: fields) ms s s'
  | cons {f : Field Reading σ} {fields : List (Field Reading σ)} {j : Json}
      {ms : List (String × Json)} {set : σ → σ} {s s' : σ}
      (hr : f.read (.ofJson (g j)) = .ok set) (h : Writes g fields ms (set s) s') :
      Writes g (f :: fields) ((f.name, j) :: ms) s s'

namespace Writes
variable {g : Json → Json} {ms : List (String × Json)} {s s' : σ}

/-- A field with its member, needed or not. -/
theorem field {name : String} {needed : Bool} {read : Reading → Decoded α} {set : α → σ → σ}
    {j : Json} {a : α} (hr : read (.ofJson (g j)) = .ok a) (h : Writes g fields ms (set a s) s') :
    Writes g (⟨name, needed, fun i => (read i).map set⟩ :: fields) ((name, j) :: ms) s s' :=
  .cons (f := ⟨name, needed, fun i => (read i).map set⟩) (congrArg (Except.map set) hr) h

/-- A field whose member may be missing. -/
theorem memberOf {name : String} {read : Reading → Decoded (Option α)} {set : Option α → σ → σ}
    {encode : α → Json} {v : Option α} (hr : ∀ a, read (.ofJson (g (encode a))) = .ok (some a))
    (hs : set none s = s) (h : Writes g fields ms (set v s) s') :
    Writes g (.optional name read set :: fields) (Json.memberOf name encode v ++ ms) s s' := by
  cases v with
  | none => exact .skip rfl (hs ▸ h)
  | some a => exact .field (hr a) h

private theorem keys_sublist (h : Writes g fields ms s s') :
    (ms.map Prod.fst).Sublist (fields.map Field.name) := by
  induction h with
  | nil => exact .slnil
  | skip _ _ ih => exact ih.cons _
  | cons _ _ ih => exact ih.cons_cons _

private theorem needed_mem (h : Writes g fields ms s s') :
    ∀ f ∈ fields, f.needed = true → f.name ∈ ms.map Prod.fst := by
  induction h with
  | nil => nofun
  | skip hf _ ih =>
    intro f hm hn
    rcases List.mem_cons.mp hm with rfl | hm
    · exact absurd hn (by rw [hf]; nofun)
    · exact ih f hm hn
  | cons _ _ ih =>
    intro f hm hn
    rcases List.mem_cons.mp hm with rfl | hm
    · exact List.mem_cons_self
    · exact List.mem_cons_of_mem _ (ih f hm hn)

private theorem sets {all : List (Field Reading σ)} (h : Writes g fields ms s s')
    (ha : fields ⊆ all) : Sets all (ms.map fun e => (e.1, g e.2)) s s' := by
  induction h with
  | nil => exact .nil _
  | skip _ _ ih => exact ih fun f hf => ha (List.mem_cons_of_mem _ hf)
  | cons hr _ ih =>
    exact .cons (ha List.mem_cons_self) hr (ih fun f hf => ha (List.mem_cons_of_mem _ hf))

theorem nodup_keys (h : Writes g fields ms s s') (hc : fields.Pairwise Apart) :
    (ms.map Prod.fst).Nodup :=
  (List.pairwise_map.mpr (hc.imp And.left)).sublist h.keys_sublist

/-- What was written in the order of the fields is read in any order. -/
theorem ofMembers_perm (h : Writes g fields ms s s') (hc : fields.Pairwise Apart)
    (skip : Reading → Decoded Unit) {ms' : List (String × Json)}
    (hp : ms'.Perm (ms.map fun e => (e.1, g e.2))) :
    ofMembers fields skip (Reading.ofMembers ms') none s = .ok s' := by
  have hkeys := hp.map Prod.fst
  rw [List.map_map] at hkeys
  have hn := hkeys.nodup_iff.mpr (h.nodup_keys hc)
  have hs := (h.sets (List.Subset.refl _)).perm hc hp.symm ((hp.map Prod.fst).nodup_iff.mp hn)
  refine ofMembers_taken (m := .held) (d := 0) _
    (takeMembers_of_sets hc skip hs hn fun _ _ => List.not_mem_nil) fun f hf hneed => ?_
  rw [List.append_nil, List.mem_reverse]
  exact hkeys.mem_iff.mpr (h.needed_mem f hf hneed)

theorem record_perm {fields : Medium → List (Field Reading σ)}
    (h : Writes g (fields .held) ms s s') (hc : (fields .held).Pairwise Apart)
    {ms' : List (String × Json)} (hp : ms'.Perm (ms.map fun e => (e.1, g e.2)))
    (expected : String) :
    Reading.record .held expected fields s (.object (Reading.ofMembers ms') none) = .ok s' :=
  h.ofMembers_perm hc Reading.skip hp

/-- A record that is held back is read from its reordered form. -/
theorem record {fields : Medium → List (Field Reading σ)} (hg : Reorders g)
    (h : Writes g (fields .held) ms s s') (hc : (fields .held).Pairwise Apart)
    (expected : String) :
    Reading.record .held expected fields s (.ofJson (g (.object ms))) = .ok s' := by
  obtain ⟨ms', hms, hp⟩ := hg.object (h.nodup_keys hc)
  rw [hms]
  exact h.record_perm hc hp expected

end Writes

end Field

end MailComposer.Json
