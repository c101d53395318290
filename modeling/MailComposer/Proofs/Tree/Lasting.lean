import MailComposer.Component.Preset
import MailComposer.Proofs.Tree.Insertion
import MailComposer.Proofs.Tree.Siblings

/-!
Properties of forests that edits of their lists cannot break. What an edit has to know of a property
is said once; a patch alone needs to be looked at for itself.
-/
namespace MailComposer.Component

/-- Each component has the property for itself, whatever its id is, and keeps it when it takes in a
child that has it; a list that holds something has it where the forest around it does. -/
structure Lasting (P : List Component → Prop) : Prop where
  forall_iff : ∀ {cs}, P cs ↔ ∀ c ∈ cs, P [c]
  replaced : ∀ {old new tree tree'}, Replaced old new tree tree' → old ≠ [] → P tree →
    P old ∧ (P new → P tree')
  pruned : ∀ {i cs}, P cs → P (pruneList i cs)
  unnamed : ∀ {c : Component}, P [c.unnamed] ↔ P [c]
  adopted : ∀ {c t p p'}, adopt? c t p = some p' → P [c] → P [p] → P [p']
  built : ∀ i (p : Preset), P [p.build i]

theorem around_ne_nil (before after : List Component) (c : Component) :
    before ++ c :: after ≠ [] :=
  List.append_ne_nil_of_right_ne_nil _ (List.cons_ne_nil _ _)

namespace Lasting
variable {P : List Component → Prop} (hP : Lasting P) {tree : List Component} {i : String}
include hP

private theorem refreshed {σ : Type} [IdSource σ] (ids : σ) {c : Component} (h : P [c]) :
    P [(refresh ids c).1] := by
  rw [← hP.unnamed, unnamed_refresh]
  exact hP.unnamed.mpr h

theorem around {before after : List Component} {c : Component} :
    P (before ++ c :: after) ↔
      (∀ b ∈ before, P [b]) ∧ P [c] ∧ ∀ a ∈ after, P [a] := by
  rw [hP.forall_iff, List.forall_mem_append, List.forall_mem_cons]

theorem site? {s : Site (List Component)} (h : site? i tree = some s) (ht : P tree) :
    P s.siblings ∧ ∀ new, P new → P (s.around new) := by
  have hne : s.siblings ≠ [] := around_ne_nil _ _ _
  exact ⟨(hP.replaced (site?_replaced h []) hne ht).1,
    fun new => (hP.replaced (site?_replaced h new) hne ht).2⟩

theorem modifyIn? {tree' : List Component} {f : Component → Component}
    (h : modifyIn? i f tree = some tree') (ht : P tree)
    (hf : ∀ d, findIn? i tree = some d → P [d] → P [f d]) : P tree' := by
  obtain ⟨d, left, right, hd, hr⟩ := modifyIn?_replaced h
  obtain ⟨hold, hnew⟩ := hP.replaced hr (around_ne_nil _ _ _) ht
  obtain ⟨hl, hdd, hright⟩ := hP.around.mp hold
  exact hnew (hP.around.mpr ⟨hl, hf d hd hdd, hright⟩)

theorem insertAt {c : Component} (hc : P [c]) {cs : List Component} (hcs : P cs)
    (index : Option UInt64) : P (insertAt index c cs) :=
  hP.forall_iff.mpr (forall_mem_insertAt hc (hP.forall_iff.mp hcs) index)

theorem insert? {tree' : List Component} {c : Component} {t : Target}
    (h : insert? tree c t = some tree') (hc : P [c]) (ht : P tree) : P tree' := by
  cases grown_of_insert? h with
  | top => exact hP.insertAt hc ht t.index
  | @under i p p' _ hparent hfind hadopt hput =>
    refine hP.modifyIn? hput ht fun d hd hdd => ?_
    obtain rfl : p = d := Option.some.inj (hfind.symm.trans hd)
    exact hP.adopted hadopt hc hdd

theorem add {c : Component} (hc : P [c]) (ht : P tree) (t : Target) : P (Tree.add tree c t) := by
  unfold Tree.add
  cases h : Component.insert? tree c t with
  | none => exact ht
  | some tree' => exact hP.insert? h hc ht

theorem update {p : Patch} (ht : P tree)
    (hp : ∀ c, findIn? i tree = some c → P [c] → P [p.apply c]) : P (Tree.update tree i p) := by
  unfold Tree.update modifyIn
  cases h : Component.modifyIn? i p.apply tree with
  | none => exact ht
  | some tree' => exact hP.modifyIn? h ht hp

theorem move (ht : P tree) (d : Direction) : P (Tree.move tree i d) := by
  cases hs : Component.site? i tree with
  | none =>
    rw [Tree.move_of_none hs]
    exact ht
  | some s =>
    rw [Tree.move_of_site hs]
    obtain ⟨hold, hnew⟩ := hP.site? hs ht
    refine hnew _ (hP.forall_iff.mpr fun c hc => hP.forall_iff.mp hold c ?_)
    exact (Tree.swapped_perm d s.before s.found s.after).mem_iff.mp hc

theorem duplicate {σ : Type} [IdSource σ] (ht : P tree) (ids : σ) :
    P (Tree.duplicate tree i ids).2.1 := by
  cases hs : Component.site? i tree with
  | none =>
    rw [Tree.duplicate_of_none hs]
    exact ht
  | some s =>
    rw [Tree.duplicate_of_site hs]
    obtain ⟨hold, hnew⟩ := hP.site? hs ht
    obtain ⟨hb, hc, ha⟩ := hP.around.mp hold
    exact hnew _ (hP.around.mpr
      ⟨hb, hc, List.forall_mem_cons.mpr ⟨hP.refreshed ids hc, ha⟩⟩)

theorem detach? {c : Component} {rest : List Component} (ht : P tree)
    (h : Tree.detach? tree i = some (c, rest)) : P [c] ∧ P rest := by
  unfold Tree.detach? at h
  rw [atSibling?_eq_edit] at h
  obtain ⟨s, hs, he⟩ := Option.map_eq_some_iff.mp h
  cases he
  obtain ⟨hold, hnew⟩ := hP.site? hs ht
  obtain ⟨hb, hc, ha⟩ := hP.around.mp hold
  exact ⟨hc, hnew _ (hP.forall_iff.mpr (List.forall_mem_append.mpr ⟨hb, ha⟩))⟩

theorem relocate (ht : P tree) (t : Target) : P (Tree.relocate tree i t) := by
  unfold Tree.relocate
  split
  · cases hd : Tree.detach? tree i with
    | none => exact ht
    | some r =>
      obtain ⟨hc, hrest⟩ := hP.detach? ht hd
      cases hi : Component.insert? r.2 r.1 t with
      | none => simpa [hi] using ht
      | some tree' => simpa [hi] using hP.insert? hi hc hrest
  · exact ht

end Lasting

end MailComposer.Component
