import MailComposer.Proofs.Mutation.Applied
import MailComposer.Proofs.Tree.Siblings

/-!
Copies of a component. A copy stands right behind its source, has the next ids of the series on its
nodes, and is the component whose id is reported; to delete it is to take the copying back.
-/
namespace MailComposer
open Component IdSource

namespace Tree
variable {σ : Type} [IdSource σ] {tree tree' : List Component} {i : String} {c copy : Component}

/-- In the first list that has the id in it, the copy stands right behind the first component with
the id; all else is as it was. -/
def CopiedBehind (i : String) (c copy : Component) (tree tree' : List Component) : Prop :=
  ∃ left right, c.id = i ∧ (∀ b ∈ left, b.id ≠ i) ∧
    listHolding? i tree = some (left ++ c :: right) ∧
    listHolding? i tree' = some (left ++ c :: copy :: right) ∧
    Replaced (left ++ c :: right) (left ++ c :: copy :: right) tree tree'

private theorem copiedBehind_duplicate {s : Site (List Component)} (h : site? i tree = some s)
    (ids : σ) : CopiedBehind i s.found (refresh ids s.found).1 tree (duplicate tree i ids).2.1 := by
  have hv := site?_valid h
  rw [duplicate_of_site h]
  refine ⟨s.before, s.after, hv.found_id, hv.before_id, ?_, ?_, site?_replaced h _⟩
  · rw [listHolding?_eq_siblings, h]
    rfl
  · rw [listHolding?_eq_siblings, site?_withAfter h]
    rfl

private theorem delete_copy (h : CopiedBehind i c copy tree tree') (hn : (idsIn tree').Nodup) :
    delete tree' copy.id = tree := by
  obtain ⟨left, right, -, -, -, -, hr⟩ := h
  rw [List.append_cons left c (copy :: right), List.append_cons left c right] at hr
  exact (hr.symm.eq_delete hn).symm

end Tree

namespace Mutation
variable {σ : Type} [IdSource σ] {tree : List Component} {i : String}

/-- Whatever ids repeat, a copy goes right behind the first component with the id. It differs from
it by just the ids that the series has next, as many as it has nodes, and its own id is reported. If
no id is used twice then, its deletion gives back the forest that was there before. -/
theorem duplicate_next_ids (h : i ∈ idsIn tree) (ids : σ) :
    ∃ c copy,
      let tree' := (Tree.duplicate tree i ids).2.1
      Tree.CopiedBehind i c copy tree tree' ∧ copy.unnamed = c.unnamed ∧
        copy.ids = drawn ids c.size ∧ (Tree.duplicate tree i ids).2.2 = after ids c.size ∧
        (∀ r : Ref, r.resolve? tree = some i →
          (Mutation.duplicate r).apply tree ids =
            .ok (⟨tree', some copy.id⟩, after ids c.size)) ∧
        ((drawn ids c.size ++ idsIn tree).Nodup → Tree.delete tree' copy.id = tree) := by
  cases hs : site? i tree with
  | none => exact absurd h (site?_eq_none_iff.mp hs)
  | some s =>
    have hcopied := Tree.copiedBehind_duplicate hs ids
    obtain ⟨hdrawn, hafter⟩ := refresh_drawn ids s.found
    obtain ⟨hperm, -⟩ := Tree.idsIn_duplicate tree i ids
    have hids : (Tree.duplicate tree i ids).2.2 = after ids s.found.size := by
      rw [Tree.duplicate_of_site hs, hafter]
    have hcreated : (Tree.duplicate tree i ids).1 = some (refresh ids s.found).1.id := by
      rw [Tree.duplicate_of_site hs]
    refine ⟨s.found, (refresh ids s.found).1, hcopied, unnamed_refresh ids s.found, hdrawn, hids,
      fun r hr => ?_, fun hn => ?_⟩
    · rw [← hids, ← hcreated]
      exact apply_eq_ok_iff.mpr (.duplicate hr)
    · rw [Tree.copySize, hs, Option.elim_some] at hperm
      exact Tree.delete_copy hcopied (hperm.nodup_iff.mpr hn)

/-- A container with a row in it, in the second column of a row. -/
def menu : List Component :=
  [.column "row" .empty ["60%", "40%"] [[.leaf "top" .empty .divider],
    [.container "box" .empty [.leaf "a" .empty .divider,
      .column "pair" .empty ["50%"] [[.leaf "b" .empty (.spacer "8px")]]]]]]

theorem duplicate_next_ids_menu :
    let ids := SerialIds.ofSeed "s"
    let source := Ref.position 0 (some "row") (some 1)
    let tree' := (Tree.duplicate menu "box" ids).2.1
    "box" ∈ idsIn menu ∧ source.resolve? menu = some "box" ∧
      ∃ c copy, Tree.CopiedBehind "box" c copy menu tree' ∧ copy.unnamed = c.unnamed ∧
        copy.ids = drawn ids c.size ∧
        (Mutation.duplicate source).apply menu ids =
          .ok (⟨tree', some copy.id⟩, after ids c.size) ∧
        (drawn ids c.size ++ idsIn menu).Nodup ∧ Tree.delete tree' copy.id = menu := by
  have hbox : "box" ∈ idsIn menu := by decide
  have hsource : (Ref.position 0 (some "row") (some 1)).resolve? menu = some "box" := by decide
  have hids : idsIn menu = ["row", "top", "box", "a", "pair", "b"] := by decide
  have hnew (n : Nat) : SerialIds.numbered "s" n ∉ idsIn menu := by
    have hs : (SerialIds.numbered "s" n).toList.take 2 = ['s', '-'] := by
      simp [SerialIds.numbered]
    intro hm
    have hm := List.mem_map_of_mem (f := fun i : String => i.toList.take 2) hm
    rw [hs, hids] at hm
    exact absurd hm (by decide)
  obtain ⟨c, copy, hcopied, hunnamed, hdrawn, -, happly, hdelete⟩ :=
    duplicate_next_ids hbox (SerialIds.ofSeed "s")
  have hsize : c.size = 4 := by
    obtain ⟨left, right, -, -, hlist, -⟩ := hcopied
    have hsizes : (listHolding? "box" menu).map (List.map size) = some [4] := by decide
    rw [hlist, Option.map_some, Option.some_inj] at hsizes
    have hmem : c.size ∈ (left ++ c :: right).map size :=
      List.mem_map_of_mem (List.mem_append_right _ List.mem_cons_self)
    rw [hsizes] at hmem
    exact List.mem_singleton.mp hmem
  have hn : (drawn (SerialIds.ofSeed "s") c.size ++ idsIn menu).Nodup :=
    SerialIds.nodup_drawn_append (by decide) hnew c.size (by rw [hsize]; decide)
  exact ⟨hbox, hsource, c, copy, hcopied, hunnamed, hdrawn, happly _ hsource, hn, hdelete hn⟩

-- The list of the forest is searched before the container in front, and the second "a" is copied.
example :
    let tree := [container "x" .empty [.leaf "a" .empty .divider], container "a" .empty []]
    let copied := (Mutation.duplicate (.named "a")).apply tree (SerialIds.ofSeed "s")
    copied.toOption.map (fun r => (r.1.created, r.1.components)) =
      some (some "s-1", tree ++ [container "s-1" .empty []]) := by
  decide

end Mutation

end MailComposer
