import MailComposer.Proofs.Tree.Siblings

/-!
Patches of one component beside edits of the forest. Where ids are distinct, it makes no difference
whether the patch comes before a removal, a trade of places or a patch of another component, or
behind it.
-/
namespace MailComposer

open Component

namespace Patch
variable {a b : String} {p q : Patch} {m : List Component → List Component}

/-- Patches a component that has the id. -/
def applyTo (i : String) (p : Patch) (c : Component) : Component :=
  if c.id = i then p.apply c else c

private theorem id_applyTo (c : Component) : (p.applyTo a c).id = c.id := by
  rw [applyTo]
  split
  · exact Tree.id_apply p c
  · rfl

/-- The lists that a patch adds are empty, and stay so. -/
theorem apply_mapLists (hm : m [] = []) (c : Component) :
    p.apply (mapLists m c) = mapLists m (p.apply c) := by
  cases c with
  | leaf => rfl
  | column i s widths cells =>
    simp only [mapLists, apply]
    cases p.widths with
    | none => rfl
    | some widths =>
      simp only [padCells, List.map_append, List.map_replicate, List.length_map, hm]
  | container => rfl

private theorem applyTo_mapLists (hm : m [] = []) (c : Component) :
    p.applyTo a (mapLists m c) = mapLists m (p.applyTo a c) := by
  rw [applyTo, applyTo, id_mapLists, apply_mapLists hm]
  split <;> rfl

private theorem applyTo_comm (hab : a ≠ b) (c : Component) :
    q.applyTo b (p.applyTo a c) = p.applyTo a (q.applyTo b c) := by
  by_cases ha : c.id = a
  · have hb : c.id ≠ b := fun hb => hab (ha.symm.trans hb)
    rw [applyTo, id_applyTo, if_neg hb, applyTo.eq_def b, if_neg hb]
  · have hq : q.applyTo b c = p.applyTo a (q.applyTo b c) := by
      rw [applyTo.eq_def a, id_applyTo, if_neg ha]
    rw [← hq, applyTo.eq_def a, if_neg ha]

private theorem aimed_map_applyTo : Aimed a (List.map (p.applyTo a)) := fun cs h =>
  (List.map_congr_left fun c hc => if_neg (h c hc)).trans (List.map_id' cs)

end Patch

namespace Component
variable {i : String} {f : Component → Component} (hf : ∀ c, (f c).id = c.id)
include hf

private theorem filter_map_of_id (cs : List Component) :
    (cs.map f).filter (·.id ≠ i) = (cs.filter (·.id ≠ i)).map f := by
  rw [List.filter_map]
  congr 1
  exact List.filter_congr fun c _ => by simp [hf]

private theorem siteHere?_map (cs : List Component) : siteHere? i (cs.map f) =
    (siteHere? i cs).map fun s => ⟨s.before.map f, f s.found, s.after.map f, fun ds => ds⟩ := by
  have hp : (fun c : Component => decide (c.id ≠ i)) ∘ f = fun c => decide (c.id ≠ i) := by
    funext c
    simp [hf]
  rw [siteHere?, siteHere?, List.dropWhile_map, List.takeWhile_map, hp]
  cases cs.dropWhile fun c => decide (c.id ≠ i) <;> rfl

end Component

namespace Tree
variable {tree : List Component} {f : Component → Component}

private theorem swapped_map (d : Direction) (before : List Component) (c : Component)
    (after : List Component) :
    swapped d (before.map f) (f c) (after.map f) = (swapped d before c after).map f := by
  cases d with
  | up =>
    simp only [swapped, List.getLast?_map]
    cases before.getLast? with
    | none => rfl
    | some p => simp only [Option.map_some, List.map_append, List.map_dropLast, List.map_cons]
  | down => cases after <;> simp [swapped]

private theorem editHere_swapped_map (hf : ∀ c, (f c).id = c.id) (i : String) (d : Direction)
    (cs : List Component) :
    editHere i (swapped d) (cs.map f) = (editHere i (swapped d) cs).map f := by
  rw [editHere, editHere, siteHere?_map hf]
  cases siteHere? i cs with
  | none => rfl
  | some s => exact swapped_map d s.before s.found s.after

private theorem update_eq_throughout (hn : (idsIn tree).Nodup) (i : String) (p : Patch) :
    update tree i p = throughout (List.map (p.applyTo i)) tree := by
  rw [update, modifyIn]
  cases hm : modifyIn? i p.apply tree with
  | none =>
    have hi := findIn?_eq_none.mp ((modifyIn?_eq_none tree).mp hm)
    exact (throughout_of_absent Patch.aimed_map_applyTo tree hi).symm
  | some tree' =>
    obtain ⟨d, left, right, hd, hr⟩ := modifyIn?_replaced hm
    obtain rfl := (findIn?_eq_some hd).2
    obtain ⟨hleft, hright⟩ := id_ne_of_around (hr.nodup hn)
    have hnew : (left ++ d :: right).map (p.applyTo d.id) = left ++ p.apply d :: right := by
      rw [List.map_append, List.map_cons, Patch.aimed_map_applyTo left hleft,
        Patch.aimed_map_applyTo right hright, Patch.applyTo, if_pos rfl]
    exact hr.eq_throughout_of_nodup Patch.aimed_map_applyTo hnew hn

section
variable (hn : (idsIn tree).Nodup) (a b : String) (p q : Patch)
include hn

theorem delete_update : delete (update tree a p) b = update (delete tree b) a p := by
  have hd : (idsIn (delete tree b)).Nodup :=
    hn.sublist ((nodesIn_pruneList b tree).map Component.id)
  rw [update_eq_throughout hd, update_eq_throughout hn, delete, delete, pruneList_eq_throughout,
    pruneList_eq_throughout]
  refine throughout_comm rfl (fun m hm => Patch.applyTo_mapLists hm) (fun m hm cs => ?_) tree
  exact filter_map_of_id (fun c => by rw [Patch.id_applyTo, id_mapLists]) cs

theorem move_update (d : Direction) : move (update tree a p) b d = update (move tree b d) a p := by
  have hu : (idsIn (update tree a p)).Nodup := by rwa [idsIn_update]
  have hm := nodup_move hn b d
  rw [update_eq_throughout hm, move_eq_throughout hu, update_eq_throughout hn,
    move_eq_throughout hn]
  refine throughout_comm rfl (fun m hm => Patch.applyTo_mapLists hm) (fun m hm cs => ?_) tree
  exact editHere_swapped_map (fun c => by rw [Patch.id_applyTo, id_mapLists]) b d cs

theorem update_update_comm (hab : a ≠ b) :
    update (update tree a p) b q = update (update tree b q) a p := by
  have hu : ∀ i r, (idsIn (update tree i r)).Nodup := fun i r => by rwa [idsIn_update]
  rw [update_eq_throughout (hu a p), update_eq_throughout (hu b q), update_eq_throughout hn,
    update_eq_throughout hn]
  refine throughout_comm rfl (fun m hm => Patch.applyTo_mapLists hm) (fun m hm cs => ?_) tree
  rw [List.map_map, List.map_map]
  refine List.map_congr_left fun c _ => ?_
  rw [Function.comp_apply, Function.comp_apply, Patch.applyTo_comm hab, Patch.applyTo_mapLists hm]

end

/-- Where ids are distinct, a patch commutes with the removal of any component, the patched one and
those around it among them, with a trade of places, and with a patch of another component. -/
theorem update_commutes (hn : (idsIn tree).Nodup) (a b : String) (p : Patch) :
    delete (update tree a p) b = update (delete tree b) a p ∧
      (∀ d, move (update tree a p) b d = update (move tree b d) a p) ∧
      ∀ q, a ≠ b → update (update tree a p) b q = update (update tree b q) a p :=
  ⟨delete_update hn a b p, fun d => move_update hn a b p d,
    fun q hab => update_update_comm hn a b p q hab⟩

/-- A row with one list for its two widths, and a box in that list. -/
def halves : List Component :=
  [.column "row" .empty ["50%", "50%"]
    [[.leaf "top" .empty .divider, .container "box" .empty [.leaf "a" .empty (.text "A")]]]]

def thirds : Patch := { widths := some ["33%", "34%", "33%"] }

def renamed : Patch := { content := some "B" }

theorem update_commutes_halves :
    (idsIn halves).Nodup ∧ "row" ≠ "a" ∧
      delete (update halves "row" thirds) "box" = update (delete halves "box") "row" thirds ∧
      update (delete halves "box") "row" thirds =
        [.column "row" .empty ["33%", "34%", "33%"] [[.leaf "top" .empty .divider], [], []]] ∧
      delete (update halves "a" renamed) "box" = update (delete halves "box") "a" renamed ∧
      move (update halves "row" thirds) "box" .up = update (move halves "box" .up) "row" thirds ∧
      update (update halves "row" thirds) "a" renamed =
        update (update halves "a" renamed) "row" thirds := by
  have hn : (idsIn halves).Nodup := by decide
  obtain ⟨hbox, -, hpatch⟩ := update_commutes hn "row" "box" thirds
  obtain ⟨-, -, ha⟩ := update_commutes hn "row" "a" thirds
  exact ⟨hn, by decide, hbox, by decide, (update_commutes hn "a" "box" renamed).1,
    (update_commutes hn "row" "box" thirds).2.1 .up, ha renamed (by decide)⟩

end Tree

end MailComposer
