import MailComposer.Mutation
import MailComposer.Proofs.Tree.Holding

/-!
What a mutation does that is not refused: each kind makes one edit of the forest. Ids are drawn only
for the nodes that an addition or a copy brings in.
-/
namespace MailComposer.Mutation
open Component IdSource

variable {σ : Type} [IdSource σ]

/-- The outcomes of mutations that are not refused, with what has been checked. -/
inductive Applied (tree : List Component) (ids : σ) : Mutation → Outcome → σ → Prop
  | add {type : String} {t : Target} {p : Preset} (hp : Preset.ofName? type = some p)
      (ht : checkTarget tree t = .ok ()) :
      Applied tree ids (.add type t)
        ⟨Tree.add tree (p.build (next ids).1) t, some (next ids).1⟩ (next ids).2
  | update {id : String} {p : Patch} (h : containsIn id tree = true) :
      Applied tree ids (.update id p) ⟨Tree.update tree id p, none⟩ ids
  | delete {id : String} (h : containsIn id tree = true) :
      Applied tree ids (.delete id) ⟨Tree.delete tree id, none⟩ ids
  | move {r : Ref} {d : Direction} {id : String} (h : r.resolve? tree = some id) :
      Applied tree ids (.move r d) ⟨Tree.move tree id d, none⟩ ids
  | duplicate {r : Ref} {id : String} (h : r.resolve? tree = some id) :
      Applied tree ids (.duplicate r)
        ⟨(Tree.duplicate tree id ids).2.1, (Tree.duplicate tree id ids).1⟩
        (Tree.duplicate tree id ids).2.2
  | relocate {id : String} {t : Target} (h : containsIn id tree = true)
      (ht : checkTarget tree t = .ok ()) (ha : checkAcyclic tree id t = .ok ()) :
      Applied tree ids (.relocate id t) ⟨Tree.relocate tree id t, none⟩ ids

theorem bind_eq_ok {ε α β : Type} {x : Except ε α} {f : α → Except ε β} {b : β} :
    (x >>= f) = .ok b ↔ ∃ a, x = .ok a ∧ f a = .ok b := by
  cases x with
  | error e => exact ⟨nofun, fun ⟨_, h, _⟩ => nomatch h⟩
  | ok a =>
    constructor
    · intro h
      exact ⟨a, rfl, h⟩
    · rintro ⟨_, h, h'⟩
      cases h
      exact h'

theorem bind_eq_error {ε α β : Type} {x : Except ε α} {f : α → Except ε β} {e : ε} :
    (x >>= f) = .error e ↔ x = .error e ∨ ∃ a, x = .ok a ∧ f a = .error e := by
  cases x with
  | error _ => simp [bind, Except.bind]
  | ok _ => simp [bind, Except.bind]

theorem map_eq_ok {ε α β : Type} {x : Except ε α} {f : α → β} {b : β} :
    x.map f = .ok b ↔ ∃ a, x = .ok a ∧ f a = b := by
  cases x <;> simp [Except.map]

theorem map_eq_error {ε α β : Type} {x : Except ε α} {f : α → β} {e : ε} :
    x.map f = .error e ↔ x = .error e := by
  cases x <;> simp [Except.map]

private theorem checkNode_eq_ok {tree : List Component} {id : String} {u : Unit} :
    checkNode tree id = .ok u ↔ containsIn id tree = true := by
  unfold checkNode
  split <;> simp_all

theorem preset_eq_ok {type : String} {p : Preset} :
    preset type = .ok p ↔ Preset.ofName? type = some p := by
  unfold preset
  split <;> simp_all

private theorem resolve_eq_ok {tree : List Component} {r : Ref} {id : String} :
    resolve tree r = .ok id ↔ r.resolve? tree = some id := by
  unfold resolve
  split <;> simp_all

theorem validate_relocate_eq_ok {tree : List Component} {id : String} {t : Target} {u : Unit} :
    (relocate id t).validate tree = .ok u ↔ containsIn id tree = true ∧
      checkTarget tree t = .ok () ∧ checkAcyclic tree id t = .ok () := by
  simp only [validate, bind_eq_ok, checkNode_eq_ok]
  constructor
  · rintro ⟨_, hc, _, ht, ha⟩
    exact ⟨hc, ht, ha⟩
  · rintro ⟨hc, ht, ha⟩
    exact ⟨(), hc, (), ht, ha⟩

/-- A mutation goes through just when its checks pass, and then has one outcome. -/
theorem apply_eq_ok_iff {tree : List Component} {ids ids' : σ} {m : Mutation} {o : Outcome} :
    m.apply tree ids = .ok (o, ids') ↔ Applied tree ids m o ids' := by
  cases m with
  | add type t =>
    simp only [apply, validate, bind_eq_ok, preset_eq_ok]
    constructor
    · rintro ⟨_, ⟨p, hp, ht⟩, q, hq, h⟩
      obtain rfl : p = q := Option.some.inj (hp.symm.trans hq)
      cases h
      exact .add hp ht
    · rintro (⟨hp, ht⟩)
      exact ⟨(), ⟨_, hp, ht⟩, _, hp, rfl⟩
  | update id p =>
    simp only [apply, validate, bind_eq_ok, checkNode_eq_ok]
    constructor
    · rintro ⟨_, hc, h⟩
      cases h
      exact .update hc
    · rintro (_ | hc)
      exact ⟨(), hc, rfl⟩
  | delete id =>
    simp only [apply, validate, bind_eq_ok, checkNode_eq_ok]
    constructor
    · rintro ⟨_, hc, h⟩
      cases h
      exact .delete hc
    · rintro (_ | _ | hc)
      exact ⟨(), hc, rfl⟩
  | move r d =>
    simp only [apply, bind_eq_ok, resolve_eq_ok]
    constructor
    · rintro ⟨_, _, id, hr, h⟩
      cases h
      exact .move hr
    · rintro (_ | _ | _ | hr)
      exact ⟨(), by rw [validate, resolve_eq_ok.mpr hr]; rfl, _, hr, rfl⟩
  | duplicate r =>
    simp only [apply, bind_eq_ok, resolve_eq_ok, Tree.siblingAfter?_duplicate]
    constructor
    · rintro ⟨_, _, id, hr, h⟩
      cases h
      exact .duplicate hr
    · rintro (_ | _ | _ | _ | hr)
      exact ⟨(), by rw [validate, resolve_eq_ok.mpr hr]; rfl, _, hr, rfl⟩
  | relocate id t =>
    simp only [apply, bind_eq_ok, validate_relocate_eq_ok]
    constructor
    · rintro ⟨_, ⟨hc, ht, ha⟩, h⟩
      cases h
      exact .relocate hc ht ha
    · rintro (_ | _ | _ | _ | _ | ⟨hc, ht, ha⟩)
      exact ⟨(), ⟨hc, ht, ha⟩, rfl⟩

/-- No step after the checks fails. -/
theorem applied_of_validate {tree : List Component} {m : Mutation} (h : m.validate tree = .ok ())
    (ids : σ) : ∃ o ids', Applied tree ids m o ids' := by
  cases m with
  | add type t =>
    obtain ⟨p, hp, ht⟩ := bind_eq_ok.mp h
    exact ⟨_, _, .add (preset_eq_ok.mp hp) ht⟩
  | update i p => exact ⟨_, _, .update (checkNode_eq_ok.mp h)⟩
  | delete i => exact ⟨_, _, .delete (checkNode_eq_ok.mp h)⟩
  | move r d =>
    obtain ⟨i, hi, _⟩ := map_eq_ok.mp h
    exact ⟨_, _, .move (resolve_eq_ok.mp hi)⟩
  | duplicate r =>
    obtain ⟨i, hi, _⟩ := map_eq_ok.mp h
    exact ⟨_, _, .duplicate (resolve_eq_ok.mp hi)⟩
  | relocate i t =>
    obtain ⟨hc, ht, ha⟩ := validate_relocate_eq_ok.mp h
    exact ⟨_, _, .relocate hc ht ha⟩

/-- The number of nodes that a mutation brings into a forest if it is not refused. -/
def draws (tree : List Component) : Mutation → Nat
  | .add .. => 1
  | .duplicate r => (r.resolve? tree).elim 0 (Tree.copySize tree)
  | _ => 0

private theorem ids_build (p : Preset) (i : String) : (p.build i).ids = [i] := by
  cases p with
  | columns count => simp [Preset.build, Preset.columnRow, Component.ids, nodes, Component.id]
  | basic kind =>
    cases kind <;> simp [Preset.build, Preset.columnRow, Component.ids, nodes, nodesIn,
      nodesInCells, Component.id]

/-- The ids of the new forest are old ones and those just drawn, none of them more often. -/
theorem Applied.idsIn_subperm {tree : List Component} {ids ids' : σ} {m : Mutation} {o : Outcome}
    (h : Applied tree ids m o ids') :
    ids' = after ids (m.draws tree) ∧
      (idsIn o.components).Subperm (drawn ids (m.draws tree) ++ idsIn tree) := by
  cases h with
  | add hp ht =>
    rename_i p
    obtain ⟨ns, hp, hs⟩ := Tree.nodesIn_add_subperm tree (p.build (next ids).1) _
    have hb : (p.build (next ids).1).nodes.map Component.id = [(next ids).1] := ids_build p _
    have hi := hs.map Component.id
    rw [List.map_append, hb] at hi
    exact ⟨rfl, _, hp.map Component.id, hi⟩
  | update hc => exact ⟨rfl, (List.Perm.of_eq (Tree.idsIn_update ..)).subperm⟩
  | delete hc => exact ⟨rfl, ((nodesIn_pruneList ..).map Component.id).subperm⟩
  | move hr => exact ⟨rfl, ((Tree.nodesIn_move_perm ..).map Component.id).subperm⟩
  | duplicate hr =>
    obtain ⟨hp, ha⟩ := Tree.idsIn_duplicate tree _ ids
    simp only [draws, hr, Option.elim_some]
    exact ⟨ha, hp.subperm⟩
  | relocate hc ht ha => exact ⟨rfl, ((Tree.nodesIn_relocate_perm ..).map Component.id).subperm⟩

end MailComposer.Mutation
