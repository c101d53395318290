import MailComposer.Proofs.Mutation.Applied
import MailComposer.Proofs.Tree.Insertion
import MailComposer.Proofs.Tree.Siblings

/-!
The checks of a mutation and the edit of the forest behind it decide alike. An edit that the checks
let through takes effect at the component that is addressed; one that they refuse, made all the
same, leaves the forest as it is.
-/
namespace MailComposer

open Component

/-- The component that a reference stands for. -/
def Ref.find? (tree : List Component) : Ref → Option Component
  | .named i => findIn? i tree
  | .position index parent n => (level? tree parent n).bind fun cs => cs[index.toNat]?

theorem Ref.resolve?_eq_map (tree : List Component) (r : Ref) :
    r.resolve? tree = (r.find? tree).map Component.id := by
  cases r with
  | named i =>
    rw [resolve?, find?, containsIn]
    cases h : findIn? i tree with
    | none => rfl
    | some c => rw [Option.map_some, (findIn?_eq_some h).2]; rfl
  | position => rfl

/-- Where ids are distinct, the id of a reference leads to what it stands for. -/
theorem Ref.findIn?_of_find? {tree : List Component} {r : Ref} {c : Component}
    (hn : (idsIn tree).Nodup) (h : r.find? tree = some c) : findIn? c.id tree = some c := by
  refine findIn?_of_mem hn ?_
  cases r with
  | named i => exact (findIn?_eq_some h).1
  | position index parent n =>
    obtain ⟨cs, hcs, hc⟩ := Option.bind_eq_some_iff.mp h
    exact level?_subset hcs (List.mem_of_getElem? hc)

namespace Mutation

section
variable {c p : Component} {t : Target} {tree : List Component}

private theorem checkParent_eq_ok : checkParent t p = .ok () ↔ ∃ p', adopt? c t p = some p' := by
  cases p with
  | leaf => simp [checkParent, adopt?]
  | column => simp only [checkParent, adopt?]; split <;> simp
  | container => simp [checkParent, adopt?]

/-- The check of a target says just whether a component can be inserted there. -/
theorem checkTarget_eq_ok (c : Component) :
    checkTarget tree t = .ok () ↔ ∃ tree', insert? tree c t = some tree' := by
  unfold checkTarget insert?
  cases t.parent with
  | none => simp
  | some i =>
    dsimp only
    cases h : findIn? i tree with
    | none => simp
    | some p =>
      simp only [checkParent_eq_ok (c := c), Option.bind_eq_bind, Option.bind_some,
        Option.bind_eq_some_iff]
      constructor
      · rintro ⟨p', hp⟩
        obtain ⟨tree', hm⟩ := modifyIn?_of_findIn? (f := fun _ => p') h
        exact ⟨tree', p', hp, hm⟩
      · rintro ⟨_, p', hp, _⟩
        exact ⟨p', hp⟩

private theorem insert?_eq_none {e : MutationError} (h : checkTarget tree t = .error e) :
    insert? tree c t = none := by
  cases hi : insert? tree c t with
  | none => rfl
  | some tree' =>
    have hok := (checkTarget_eq_ok c).mpr ⟨tree', hi⟩
    rw [h] at hok
    cases hok

private theorem checkAcyclic_eq_ok {id : String} :
    checkAcyclic tree id t = .ok () ↔ ∀ p ∈ t.parent, isWithin tree id p = false := by
  unfold checkAcyclic
  cases t.parent with
  | none => simp
  | some p =>
    simp only [Option.mem_def, Option.some.injEq, forall_eq']
    split <;> simp_all

private theorem checkParent_prune (i : String) : checkParent t (prune i p) = checkParent t p := by
  cases p <;> rfl

/-- To take out a component whose subtree does not hold the target leaves the check as it was. -/
private theorem checkTarget_delete {id : String} (hn : (idsIn tree).Nodup)
    (h : ∀ p ∈ t.parent, isWithin tree id p = false) :
    checkTarget (Tree.delete tree id) t = checkTarget tree t := by
  unfold checkTarget
  cases ht : t.parent with
  | none => rfl
  | some p =>
    dsimp only
    rw [Tree.delete, findIn?_pruneList (find?_of_isWithin hn (h p ht))]
    cases findIn? p tree with
    | none => rfl
    | some d => exact checkParent_prune id

private theorem reaches_eq_true {id : String} (ht : checkTarget tree t = .ok ())
    (ha : ∀ p ∈ t.parent, isWithin tree id p = false) : Tree.reaches tree id t = true := by
  unfold Tree.reaches
  unfold checkTarget at ht
  cases hp : t.parent with
  | none => rfl
  | some p =>
    rw [hp] at ht
    cases hf : findIn? p tree with
    | none => simp [hf] at ht
    | some d => simp [ha p hp, containsIn, hf]

end

variable {σ : Type} [IdSource σ]

/-- What a mutation is to do: the search for its place succeeds, and the edit shows there. -/
def TakesEffect (tree : List Component) (ids : σ) : Mutation → Prop
  | .add _ t => ∀ c, ∃ old new,
      insert? tree c t = some (Tree.add tree c t) ∧
      level? tree t.parent t.column = some old ∧
      level? (Tree.add tree c t) t.parent t.column = some new ∧ Inserted t.index c old new
  | .update i p => ∃ c, findIn? i tree = some c ∧
      modifyIn? i p.apply tree = some (Tree.update tree i p) ∧
      findIn? i (Tree.update tree i p) = some (p.apply c)
  | .delete i => i ∈ idsIn tree ∧ i ∉ idsIn (Tree.delete tree i)
  | .move r d => ∃ c siblings traded, r.find? tree = some c ∧
      atSibling? c.id (fun before c after => ((), Tree.swapped d before c after)) tree =
        some ((), Tree.move tree c.id d) ∧
      Tree.Traded d c siblings traded ∧ Replaced siblings traded tree (Tree.move tree c.id d)
  | .duplicate r => ∃ c copy before after, r.find? tree = some c ∧ copy.unnamed = c.unnamed ∧
      (Tree.duplicate tree c.id ids).1 = some copy.id ∧
      Replaced (before ++ c :: after) (before ++ c :: copy :: after) tree
        (Tree.duplicate tree c.id ids).2.1
  | .relocate i t => ∃ c rest old new, findIn? i tree = some c ∧
      Tree.reaches tree i t = true ∧ Tree.detach? tree i = some (c, rest) ∧
      insert? rest c t = some (Tree.relocate tree i t) ∧
      level? tree t.parent t.column = some old ∧
      level? (Tree.relocate tree i t) t.parent t.column = some new ∧
      Inserted t.index c (pruneList i old) new

/-- The edit without the checks changes nothing and draws no id; a position that is refused names no
id to edit at. -/
def LeavesAlone (tree : List Component) (ids : σ) : Mutation → Prop
  | .add _ t => ∀ c, Tree.add tree c t = tree
  | .update i p => Tree.update tree i p = tree
  | .delete i => Tree.delete tree i = tree
  | .move r d => r.resolve? tree = none ∧ ∀ i, r = .named i → Tree.move tree i d = tree
  | .duplicate r => r.resolve? tree = none ∧
      ∀ i, r = .named i → Tree.duplicate tree i ids = (none, tree, ids)
  | .relocate i t => Tree.relocate tree i t = tree

/-- The kind of component that it asks for, if any, is known. -/
def NamesKnownType (m : Mutation) : Prop :=
  ∀ type t, m = .add type t → (Preset.ofName? type).isSome = true

section
variable {tree : List Component} (ids : σ)

theorem add_takesEffect {type : String} {t : Target} (h : checkTarget tree t = .ok ()) :
    TakesEffect tree ids (.add type t) := by
  intro c
  obtain ⟨tree', hi⟩ := (checkTarget_eq_ok c).mp h
  have ha : Tree.add tree c t = tree' := by rw [Tree.add, hi, Option.getD_some]
  obtain ⟨old, hold, hnew⟩ := level?_insert? hi
  rw [ha]
  exact ⟨old, _, hi, hold, hnew, insertAt_inserted t.index c old⟩

private theorem update_takesEffect {i : String} (p : Patch) (h : containsIn i tree = true) :
    TakesEffect tree ids (.update i p) := by
  obtain ⟨c, hc⟩ := Option.isSome_iff_exists.mp h
  obtain ⟨tree', hm⟩ := modifyIn?_of_findIn? (f := p.apply) hc
  have ht : Tree.update tree i p = tree' := by
    rw [Tree.update, modifyIn, hm, Option.getD_some]
  have hid : (p.apply c).id = i := (Tree.id_apply p c).trans (findIn?_eq_some hc).2
  exact ⟨c, hc, ht ▸ hm, ht ▸ findIn?_modifyIn? hm hc hid⟩

theorem delete_takesEffect {i : String} (h : containsIn i tree = true) :
    TakesEffect tree ids (.delete i) :=
  ⟨containsIn_iff.mp h, not_mem_idsIn_pruneList i tree⟩

private theorem move_takesEffect (hn : (idsIn tree).Nodup) {r : Ref} (d : Direction) {i : String}
    (h : r.resolve? tree = some i) : TakesEffect tree ids (.move r d) := by
  obtain ⟨c, hc, rfl⟩ := Option.map_eq_some_iff.mp (r.resolve?_eq_map tree ▸ h)
  obtain ⟨s, hs, rfl⟩ := site?_of_findIn? hn (Ref.findIn?_of_find? hn hc)
  obtain ⟨traded, ht, hr⟩ := Tree.move_replaced hs d
  exact ⟨s.found, s.siblings, traded, hc, Tree.atSibling?_move hs d, ht, hr⟩

theorem duplicate_takesEffect (hn : (idsIn tree).Nodup) {r : Ref} {i : String}
    (h : r.resolve? tree = some i) : TakesEffect tree ids (.duplicate r) := by
  obtain ⟨c, hc, rfl⟩ := Option.map_eq_some_iff.mp (r.resolve?_eq_map tree ▸ h)
  obtain ⟨s, hs, rfl⟩ := site?_of_findIn? hn (Ref.findIn?_of_find? hn hc)
  obtain ⟨copy, hu, hcopy, hr⟩ := Tree.duplicate_replaced hs ids
  exact ⟨s.found, copy, s.before, s.after, hc, hu, hcopy, hr⟩

/-- Where the checks of a relocation pass, the component is found, taken out and put in again. -/
theorem relocate_of_checks (hn : (idsIn tree).Nodup) {i : String} {t : Target}
    (h : containsIn i tree = true) (ht : checkTarget tree t = .ok ())
    (ha : checkAcyclic tree i t = .ok ()) : ∃ c, findIn? i tree = some c ∧
      Tree.reaches tree i t = true ∧ Tree.detach? tree i = some (c, Tree.delete tree i) ∧
      insert? (Tree.delete tree i) c t = some (Tree.relocate tree i t) := by
  have hw := checkAcyclic_eq_ok.mp ha
  have hreach := reaches_eq_true ht hw
  obtain ⟨c, hc⟩ := Option.isSome_iff_exists.mp h
  have hd := Tree.detach?_of_findIn? hn hc
  obtain ⟨tree', hi⟩ := (checkTarget_eq_ok c).mp ((checkTarget_delete hn hw).trans ht)
  have hr : Tree.relocate tree i t = tree' := by
    simp only [Tree.relocate, hreach, if_true, hd, hi, Option.getD_some]
  exact ⟨c, hc, hreach, hd, hr ▸ hi⟩

theorem relocate_takesEffect (hn : (idsIn tree).Nodup) {i : String} {t : Target}
    (h : containsIn i tree = true) (ht : checkTarget tree t = .ok ())
    (ha : checkAcyclic tree i t = .ok ()) : TakesEffect tree ids (.relocate i t) := by
  have hw := checkAcyclic_eq_ok.mp ha
  obtain ⟨c, hc, hreach, hd, hi⟩ := relocate_of_checks hn h ht ha
  obtain ⟨level, hlevel, hnew⟩ := level?_insert? hi
  -- The list that receives the component is the old one without it.
  obtain ⟨old, hold, rfl⟩ := Option.map_eq_some_iff.mp (level?_delete hn hw t.column ▸ hlevel)
  exact ⟨c, _, old, _, hc, hreach, hd, hi, hold, hnew, insertAt_inserted t.index c _⟩

end

section
variable {tree : List Component} (ids : σ)

private theorem resolve_eq_error {r : Ref} {e : MutationError} (h : resolve tree r = .error e) :
    r.resolve? tree = none := by
  unfold resolve at h
  split at h
  · cases h
  all_goals assumption

private theorem not_mem_of_named {i : String} (h : (Ref.named i).resolve? tree = none) :
    i ∉ idsIn tree := by
  rw [Ref.resolve?_eq_map, Option.map_eq_none_iff] at h
  exact findIn?_eq_none.mp h

private theorem add_leavesAlone {type : String} {t : Target} {e : MutationError}
    (h : checkTarget tree t = .error e) : LeavesAlone tree ids (.add type t) := by
  intro c
  rw [Tree.add, insert?_eq_none h, Option.getD_none]

private theorem update_leavesAlone {i : String} (p : Patch) (h : i ∉ idsIn tree) :
    LeavesAlone tree ids (.update i p) := by
  rw [LeavesAlone, Tree.update, modifyIn, (modifyIn?_eq_none tree).mpr (findIn?_eq_none.mpr h),
    Option.getD_none]

private theorem delete_leavesAlone {i : String} (h : i ∉ idsIn tree) :
    LeavesAlone tree ids (.delete i) :=
  pruneList_of_not_mem h

private theorem move_leavesAlone {r : Ref} (d : Direction) (h : r.resolve? tree = none) :
    LeavesAlone tree ids (.move r d) := by
  refine ⟨h, ?_⟩
  rintro i rfl
  exact Tree.move_of_none (site?_eq_none_iff.mpr (not_mem_of_named h)) d

private theorem duplicate_leavesAlone {r : Ref} (h : r.resolve? tree = none) :
    LeavesAlone tree ids (.duplicate r) := by
  refine ⟨h, ?_⟩
  rintro i rfl
  exact Tree.duplicate_of_none (site?_eq_none_iff.mpr (not_mem_of_named h))

private theorem relocate_of_not_mem {i : String} (t : Target) (h : i ∉ idsIn tree) :
    LeavesAlone tree ids (.relocate i t) := by
  have hd : Tree.detach? tree i = none := by
    rw [Tree.detach?, atSibling?_eq_edit, site?_eq_none_iff.mpr h, Option.map_none]
  simp only [LeavesAlone, Tree.relocate, hd, ite_self]

private theorem relocate_of_not_reaches {i : String} {t : Target}
    (h : Tree.reaches tree i t = false) : LeavesAlone tree ids (.relocate i t) := by
  simp only [LeavesAlone, Tree.relocate, h, Bool.false_eq_true, if_false]

private theorem relocate_of_cycle {i : String} {t : Target} {e : MutationError}
    (h : checkAcyclic tree i t = .error e) : LeavesAlone tree ids (.relocate i t) := by
  refine relocate_of_not_reaches ids ?_
  unfold checkAcyclic at h
  split at h
  · cases h
  · next p hp =>
    split at h
    · next hw => simp only [Tree.reaches, hp, hw, Bool.not_true, Bool.false_and]
    · cases h

/-- A target that is refused stays refused once the component is taken out of the forest. -/
private theorem relocate_of_target (hn : (idsIn tree).Nodup) {i : String} {t : Target}
    {e : MutationError}
    (h : checkTarget tree t = .error e) : LeavesAlone tree ids (.relocate i t) := by
  cases hr : Tree.reaches tree i t with
  | false => exact relocate_of_not_reaches ids hr
  | true =>
    have hw : ∀ p ∈ t.parent, isWithin tree i p = false := by
      intro p hp
      rw [Tree.reaches, Option.mem_def.mp hp] at hr
      simpa using (Bool.and_eq_true_iff.mp hr).1
    cases hf : findIn? i tree with
    | none => exact relocate_of_not_mem ids t (findIn?_eq_none.mp hf)
    | some c =>
      have hi : insert? (Tree.delete tree i) c t = none :=
        insert?_eq_none ((checkTarget_delete hn hw).trans h)
      simp only [LeavesAlone, Tree.relocate, hr, if_true, Tree.detach?_of_findIn? hn hf, hi,
        Option.getD_none]

private theorem checkNode_eq_error {i : String} {e : MutationError}
    (h : checkNode tree i = .error e) : i ∉ idsIn tree := by
  unfold checkNode at h
  split at h
  · cases h
  · next hc => exact fun hi => hc (containsIn_iff.mpr hi)

end

private theorem Applied.takesEffect {tree : List Component} (hn : (idsIn tree).Nodup) {ids ids' : σ}
    {m : Mutation} {o : Outcome} (h : Applied tree ids m o ids') : TakesEffect tree ids m := by
  cases h with
  | add _ ht => exact add_takesEffect ids ht
  | update h => exact update_takesEffect ids _ h
  | delete h => exact delete_takesEffect ids h
  | move h => exact move_takesEffect ids hn _ h
  | duplicate h => exact duplicate_takesEffect ids hn h
  | relocate h ht ha => exact relocate_takesEffect ids hn h ht ha

private theorem leavesAlone_of_validate {tree : List Component} (hn : (idsIn tree).Nodup) (ids : σ)
    {m : Mutation} (hk : m.NamesKnownType) {e : MutationError} (h : m.validate tree = .error e) :
    LeavesAlone tree ids m := by
  cases m with
  | add type t =>
    rcases bind_eq_error.mp h with h | ⟨_, _, h⟩
    · obtain ⟨p, hp⟩ := Option.isSome_iff_exists.mp (hk type t rfl)
      cases (preset_eq_ok.mpr hp).symm.trans h
    · exact add_leavesAlone ids h
  | update i p => exact update_leavesAlone ids p (checkNode_eq_error h)
  | delete i => exact delete_leavesAlone ids (checkNode_eq_error h)
  | move r d => exact move_leavesAlone ids d (resolve_eq_error (map_eq_error.mp h))
  | duplicate r => exact duplicate_leavesAlone ids (resolve_eq_error (map_eq_error.mp h))
  | relocate i t =>
    rcases bind_eq_error.mp h with h | ⟨_, _, h⟩
    · exact relocate_of_not_mem ids t (checkNode_eq_error h)
    · rcases bind_eq_error.mp h with h | ⟨_, _, h⟩
      · exact relocate_of_target ids hn h
      · exact relocate_of_cycle ids h

/-- The checks let through what takes effect, and refuse what would change nothing. -/
theorem edit_follows_checks {tree : List Component} (hn : (idsIn tree).Nodup) {m : Mutation}
    (hk : m.NamesKnownType) (ids : σ) :
    (m.validate tree = .ok () → TakesEffect tree ids m) ∧
      ∀ e, m.validate tree = .error e → LeavesAlone tree ids m := by
  refine ⟨fun h => ?_, fun _ => leavesAlone_of_validate hn ids hk⟩
  obtain ⟨o, ids', ha⟩ := applied_of_validate h ids
  exact ha.takesEffect hn

/-- A row that still lacks the list of its second column, beside a container. -/
def letter : List Component :=
  [.container "box" .empty [.leaf "a" .empty .divider, .leaf "b" .empty (.spacer "8px")],
   .column "row" .empty ["60%", "40%"] [[.leaf "c" .empty .divider]]]

theorem edit_follows_checks_letter :
    let ids := SerialIds.ofSeed "s"
    let moved : Mutation := .relocate "box" (.inColumn "row" 1)
    let refused : Mutation := .add "column3" (.inColumn "row" 2)
    (idsIn letter).Nodup ∧ moved.NamesKnownType ∧ refused.NamesKnownType ∧
      moved.validate letter = .ok () ∧ TakesEffect letter ids moved ∧
      refused.validate letter = .error (.columnOutOfRange 2 2) ∧
      LeavesAlone letter ids refused := by
  have hn : (idsIn letter).Nodup := by decide
  have hm : NamesKnownType (.relocate "box" (.inColumn "row" 1)) := nofun
  have hr : NamesKnownType (.add "column3" (.inColumn "row" 2)) := by
    rintro _ _ ⟨⟩
    rfl
  exact ⟨hn, hm, hr, rfl, (edit_follows_checks hn hm _).1 rfl, rfl,
    (edit_follows_checks hn hr _).2 _ rfl⟩

end Mutation

end MailComposer
