import MailComposer.Proofs.Mutation.Effects

/-!
A relocation that the checks let through is a removal and an addition. The component comes to its new
place with all that stands below it.
-/
namespace MailComposer.Mutation
open Component

variable {tree : List Component} {i : String} {t : Target}

/-- Where ids are distinct, to relocate a component is to delete it and to add it at the target. All
of its subtree is found as it was. -/
theorem relocate_eq_add_delete (hn : (idsIn tree).Nodup)
    (hv : (Mutation.relocate i t).validate tree = .ok ()) :
    ∃ c, findIn? i tree = some c ∧
      Tree.relocate tree i t = Tree.add (Tree.delete tree i) c t ∧
      ∀ d ∈ subtrees c, findIn? d.id (Tree.relocate tree i t) = some d := by
  obtain ⟨hnode, htarget, hacyclic⟩ := validate_relocate_eq_ok.mp hv
  obtain ⟨c, hc, -, -, hi⟩ := relocate_of_checks hn hnode htarget hacyclic
  have hids : (idsIn (Tree.relocate tree i t)).Nodup :=
    ((Tree.nodesIn_relocate_perm tree i t).map Component.id).nodup_iff.mpr hn
  refine ⟨c, hc, ?_, fun d hd => findIn?_of_mem hids (subtrees_subset_insert? hi hd)⟩
  rw [Tree.add, hi, Option.getD_some]

theorem relocate_eq_add_delete_letter :
    let moved : Mutation := .relocate "box" (.inColumn "row" 1)
    (idsIn letter).Nodup ∧ moved.validate letter = .ok () ∧
      ∃ c, findIn? "box" letter = some c ∧
        Tree.relocate letter "box" (.inColumn "row" 1) =
          Tree.add (Tree.delete letter "box") c (.inColumn "row" 1) ∧
        ∀ d ∈ subtrees c, findIn? d.id (Tree.relocate letter "box" (.inColumn "row" 1)) = some d := by
  have hn : (idsIn letter).Nodup := by decide
  exact ⟨hn, rfl, relocate_eq_add_delete hn rfl⟩

end MailComposer.Mutation
