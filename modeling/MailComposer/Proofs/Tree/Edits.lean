import MailComposer.Proofs.Ids.Drawn
import MailComposer.Proofs.Tree.Site

/-!
What each edit of a forest does to its nodes. Nodes are never made up and never doubled: they come
from the forest or from what is put into it.
-/
namespace MailComposer.Component

private theorem insertAt_perm (index : Option UInt64) (c : Component) (cs : List Component) :
    (insertAt index c cs).Perm (c :: cs) := by
  unfold insertAt
  exact List.perm_middle.trans (by rw [List.take_append_drop])

theorem forall_mem_insertAt {q : Component → Prop} {c : Component} {cs : List Component} (hc : q c)
    (hcs : ∀ d ∈ cs, q d) (index : Option UInt64) : ∀ d ∈ insertAt index c cs, q d := by
  intro d hd
  rcases List.mem_cons.mp ((insertAt_perm index c cs).mem_iff.mp hd) with rfl | hd
  · exact hc
  · exact hcs d hd

private theorem nodesInCells_padCells (needed : Nat) (cells : List (List Component)) :
    nodesInCells (padCells needed cells) = nodesInCells cells := by
  simp [padCells]

theorem length_padCells (needed : Nat) (cells : List (List Component)) :
    (padCells needed cells).length = max needed cells.length := by
  simp only [padCells, List.length_append, List.length_replicate]
  omega

private theorem nodesIn_insertAt (index : Option UInt64) (c : Component) (cs : List Component) :
    (nodesIn (insertAt index c cs)).Perm (nodes c ++ nodesIn cs) :=
  nodesIn_perm (insertAt_perm index c cs)

/-- A parent and what it becomes with a new child: the list that is addressed has it, in a row of
columns once there is a list for each width. -/
inductive Adopted (c : Component) (t : Target) : Component → Component → Prop
  | column (i : String) (s : StyleMap) {widths : List String}
      {left right cells : List (List Component)} {cs : List Component}
      (hleft : left.length = (t.column.getD 0).toNat)
      (hwidth : left.length < widths.length)
      (hcells : padCells widths.length cells = left ++ cs :: right) :
      Adopted c t (.column i s widths cells)
        (.column i s widths (left ++ insertAt t.index c cs :: right))
  | container (i : String) (s : StyleMap) (children : List Component) :
      Adopted c t (.container i s children) (.container i s (insertAt t.index c children))

theorem adopted_of_adopt? {c p p' : Component} {t : Target} (h : adopt? c t p = some p') :
    Adopted c t p p' := by
  cases p with
  | leaf => cases h
  | column i s widths cells =>
    simp only [adopt?] at h
    split at h
    · next hw =>
      obtain rfl := Option.some.inj h
      have hn : (t.column.getD 0).toNat < (padCells widths.length cells).length := by
        rw [length_padCells]
        omega
      obtain ⟨left, cs, right, hcells, hleft, hmod⟩ :=
        List.exists_of_modify (insertAt t.index c) hn
      rw [hmod]
      exact .column i s hleft (hleft ▸ hw) hcells
    · cases h
  | container i s children =>
    obtain rfl := Option.some.inj h
    exact .container i s children

private theorem nodes_adopt? {c p p' : Component} {t : Target} (h : adopt? c t p = some p') :
    (nodes p').Perm (nodes c ++ nodes p) := by
  cases adopted_of_adopt? h with
  | @column i s widths left right cells cs hleft hwidth hcells =>
    have hs : Spliced (nodesIn cs) (nodesIn (insertAt t.index c cs))
        (nodes (.column i s widths (left ++ cs :: right)))
        (nodes (.column i s widths (left ++ insertAt t.index c cs :: right))) := by
      simp only [nodes, nodesInCells_append, nodesInCells]
      exact (((Spliced.whole _ _).append_right _).append_left _).cons _
    have hp := hs.perm_append (nodesIn_insertAt t.index c cs)
    rw [← hcells] at hp
    simpa only [nodes, nodesInCells_padCells] using hp
  | container i s children =>
    simp only [nodes]
    exact ((nodesIn_insertAt t.index c children).cons _).trans List.perm_middle.symm

/-- What a forest becomes with a new component: its own list has it, or a parent that is found takes
it in and is put back. -/
inductive Grown (c : Component) (t : Target) (tree : List Component) : List Component → Prop
  | top (hparent : t.parent = none) : Grown c t tree (insertAt t.index c tree)
  | under {i : String} {p p' : Component} {tree' : List Component} (hparent : t.parent = some i)
      (hfind : findIn? i tree = some p) (hadopt : adopt? c t p = some p')
      (hput : modifyIn? i (fun _ => p') tree = some tree') : Grown c t tree tree'

theorem grown_of_insert? {tree tree' : List Component} {c : Component} {t : Target}
    (h : insert? tree c t = some tree') : Grown c t tree tree' := by
  unfold insert? at h
  split at h
  · next hparent =>
    obtain rfl := Option.some.inj h
    exact .top hparent
  · next i hparent =>
    obtain ⟨p, hfind, h⟩ := Option.bind_eq_some_iff.mp h
    obtain ⟨p', hadopt, hput⟩ := Option.bind_eq_some_iff.mp h
    exact .under hparent hfind hadopt hput

/-- An insertion that succeeds adds the nodes of the new component, once each. -/
theorem nodesIn_insert? {tree tree' : List Component} {c : Component} {t : Target}
    (h : insert? tree c t = some tree') : (nodesIn tree').Perm (nodes c ++ nodesIn tree) := by
  cases grown_of_insert? h with
  | top => exact nodesIn_insertAt t.index c tree
  | @under i p p' _ hparent hfind hadopt hput =>
    obtain ⟨d, hd, hs⟩ := modifyIn?_spliced hput
    obtain rfl : p = d := Option.some.inj (hfind.symm.trans hd)
    exact hs.perm_append (nodes_adopt? hadopt)

section
open IdSource
variable {σ : Type} [IdSource σ]

mutual

/-- A copy takes as many ids from the source as it has nodes, in the order of the nodes. -/
theorem refresh_drawn : ∀ (ids : σ) (c : Component),
    (refresh ids c).1.ids = drawn ids c.size ∧ (refresh ids c).2 = after ids c.size
  | _, .leaf .. => ⟨rfl, rfl⟩
  | ids, .column _ s w cells => by
    obtain ⟨hi, ha⟩ := refreshCells_drawn (next ids).2 cells
    rw [size, Nat.add_comm, drawn_succ, after_succ, ← hi, ← ha]
    exact ⟨rfl, rfl⟩
  | ids, .container _ s children => by
    obtain ⟨hi, ha⟩ := refreshList_drawn (next ids).2 children
    rw [size, Nat.add_comm, drawn_succ, after_succ, ← hi, ← ha]
    exact ⟨rfl, rfl⟩

private theorem refreshList_drawn : ∀ (ids : σ) (cs : List Component),
    idsIn (refreshList ids cs).1 = drawn ids (sizeList cs) ∧
      (refreshList ids cs).2 = after ids (sizeList cs)
  | _, [] => ⟨rfl, rfl⟩
  | ids, c :: rest => by
    obtain ⟨hi, ha⟩ := refresh_drawn ids c
    obtain ⟨hr, hs⟩ := refreshList_drawn (refresh ids c).2 rest
    rw [sizeList, drawn_add, after_add, ← hi, ← ha, ← hr, ← hs]
    exact ⟨List.map_append, rfl⟩

private theorem refreshCells_drawn : ∀ (ids : σ) (cells : List (List Component)),
    (nodesInCells (refreshCells ids cells).1).map id = drawn ids (sizeCells cells) ∧
      (refreshCells ids cells).2 = after ids (sizeCells cells)
  | _, [] => ⟨rfl, rfl⟩
  | ids, cs :: rest => by
    obtain ⟨hi, ha⟩ := refreshList_drawn ids cs
    obtain ⟨hr, hs⟩ := refreshCells_drawn (refreshList ids cs).2 rest
    rw [sizeCells, drawn_add, after_add, ← hi, ← ha, ← hr, ← hs]
    exact ⟨List.map_append, rfl⟩

end

end

mutual

theorem nodes_prune (i : String) : ∀ c : Component, (nodes (prune i c)).Sublist (nodes c)
  | .leaf .. => .refl _
  | .column _ _ _ cells => (nodesInCells_pruneCells i cells).cons_cons _
  | .container _ _ children => (nodesIn_pruneList i children).cons_cons _

/-- A removal keeps the nodes that it leaves in their order. -/
theorem nodesIn_pruneList (i : String) :
    ∀ cs : List Component, (nodesIn (pruneList i cs)).Sublist (nodesIn cs)
  | [] => .refl _
  | c :: rest => by
    rw [pruneList]
    split
    · exact (nodesIn_pruneList i rest).trans (List.sublist_append_right ..)
    · exact (nodes_prune i c).append (nodesIn_pruneList i rest)

theorem nodesInCells_pruneCells (i : String) :
    ∀ cells : List (List Component),
      (nodesInCells (pruneCells i cells)).Sublist (nodesInCells cells)
  | [] => .refl _
  | cs :: rest => (nodesIn_pruneList i cs).append (nodesInCells_pruneCells i rest)

end

end MailComposer.Component

namespace MailComposer.Tree
open Component IdSource

theorem nodesIn_add_subperm (tree : List Component) (c : Component) (t : Target) :
    (nodesIn (add tree c t)).Subperm (nodes c ++ nodesIn tree) := by
  unfold add
  cases h : insert? tree c t with
  | none => exact (List.sublist_append_right ..).subperm
  | some tree' => exact (nodesIn_insert? h).subperm

theorem swapped_perm (d : Direction) (before : List Component) (c : Component)
    (after : List Component) : (swapped d before c after).Perm (before ++ c :: after) := by
  cases d with
  | up =>
    simp only [swapped]
    split
    · next p hp =>
      obtain ⟨rest, rfl⟩ := List.getLast?_eq_some_iff.mp hp
      simpa using (List.Perm.swap p c after).append_left rest
    · next hp =>
      obtain rfl := List.getLast?_eq_none_iff.mp hp
      exact .refl _
  | down =>
    cases after with
    | nil => exact .refl _
    | cons n after => exact (List.Perm.swap c n after).append_left before

theorem nodesIn_move_perm (tree : List Component) (i : String) (d : Direction) :
    (nodesIn (move tree i d)).Perm (nodesIn tree) := by
  unfold move
  split
  · next tree' h =>
    obtain ⟨s, hs, he⟩ := atSibling?_eq_some h
    rw [← (Prod.mk.inj he).2]
    exact ((site?_valid hs).spliced _).perm
      (nodesIn_perm (swapped_perm d s.before s.found s.after))
  · exact .refl _

theorem nodup_move {tree : List Component} (hn : (idsIn tree).Nodup) (i : String)
    (d : Direction) : (idsIn (move tree i d)).Nodup :=
  ((nodesIn_move_perm tree i d).map Component.id).nodup_iff.mpr hn

private theorem nodesIn_detach? {tree rest : List Component} {i : String} {c : Component}
    (h : detach? tree i = some (c, rest)) : (nodesIn tree).Perm (nodes c ++ nodesIn rest) := by
  obtain ⟨s, hs, he⟩ := atSibling?_eq_some h
  obtain ⟨rfl, rfl⟩ := Prod.mk.inj he
  exact ((site?_valid hs).spliced _).symm.perm_append (nodesIn_perm List.perm_middle)

/-- The number of nodes that a copy of the component with an id has. -/
def copySize (tree : List Component) (i : String) : Nat :=
  (site? i tree).elim 0 fun s => s.found.size

theorem duplicate_of_site {σ : Type} [IdSource σ] {tree : List Component} {i : String} {ids : σ}
    {s : Site (List Component)} (h : site? i tree = some s) :
    duplicate tree i ids = (some (refresh ids s.found).1.id,
      s.around (s.before ++ s.found :: (refresh ids s.found).1 :: s.after),
      (refresh ids s.found).2) := by
  simp only [duplicate, atSibling?_eq_edit, h, Option.map_some, Site.edit]

theorem duplicate_of_none {σ : Type} [IdSource σ] {tree : List Component} {i : String} {ids : σ}
    (h : site? i tree = none) : duplicate tree i ids = (none, tree, ids) := by
  simp only [duplicate, atSibling?_eq_edit, h, Option.map_none]

/-- A copy brings in as many new ids as it has nodes, and no other id is drawn. -/
theorem idsIn_duplicate {σ : Type} [IdSource σ] (tree : List Component) (i : String) (ids : σ) :
    (idsIn (duplicate tree i ids).2.1).Perm (drawn ids (copySize tree i) ++ idsIn tree) ∧
      (duplicate tree i ids).2.2 = after ids (copySize tree i) := by
  cases h : site? i tree with
  | none => simp [duplicate_of_none h, copySize, h]
  | some s =>
    obtain ⟨hi, ha⟩ := refresh_drawn ids s.found
    have hc : (s.before ++ s.found :: (refresh ids s.found).1 :: s.after).Perm
        ((refresh ids s.found).1 :: s.siblings) := by
      refine ((List.Perm.swap _ s.found s.after).append_left s.before).trans ?_
      exact List.perm_middle
    have ht := (((site?_valid h).spliced _).perm_append (nodesIn_perm hc)).map Component.id
    rw [List.map_append] at ht
    simp only [duplicate_of_site h, copySize, h, Option.elim_some, ← ha, ← hi]
    exact ⟨ht, trivial⟩

/-- Nothing is lost or doubled on the way to another place. -/
theorem nodesIn_relocate_perm (tree : List Component) (i : String) (t : Target) :
    (nodesIn (relocate tree i t)).Perm (nodesIn tree) := by
  unfold relocate
  split
  · split
    · next c rest hd =>
      cases h : insert? rest c t with
      | none => exact .refl _
      | some tree' => exact (nodesIn_insert? h).trans (nodesIn_detach? hd).symm
    · exact .refl _
  · exact .refl _

theorem id_apply (p : Patch) (c : Component) : (p.apply c).id = c.id := by
  cases c with
  | leaf => rfl
  | container => rfl
  | column =>
    simp only [Patch.apply]
    split <;> rfl

theorem ids_apply (p : Patch) (c : Component) : (p.apply c).ids = c.ids := by
  cases c with
  | leaf => rfl
  | container => rfl
  | column i s w cells =>
    simp only [Patch.apply]
    split <;> simp [ids, nodes, nodesInCells_padCells, Component.id]

theorem idsIn_update (tree : List Component) (i : String) (p : Patch) :
    idsIn (update tree i p) = idsIn tree := by
  unfold update modifyIn
  cases h : modifyIn? i p.apply tree with
  | none => rfl
  | some tree' =>
    obtain ⟨d, _, hs⟩ := modifyIn?_spliced h
    exact hs.map_eq (ids_apply p d)

end MailComposer.Tree
