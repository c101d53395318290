import MailComposer.Proofs.Mutation.Applied
import MailComposer.Proofs.Tree.Siblings

/-!
Positions in the lists of a forest. Where ids are distinct, a trade of places swaps a component with
a neighbour in its own list, and what is asked for at an index is done to the component at that
position, just as if it were called by its id.
-/
namespace MailComposer

open Component IdSource

namespace Component
variable {tree cs : List Component} {c : Component}

/-- A list of the forest: the forest itself, the children of a container or those in a column. -/
def Listed (cs tree : List Component) : Prop := Replaced cs cs tree tree

private theorem exists_listed {i : String} (h : i ∈ idsIn tree) :
    ∃ cs c, Listed cs tree ∧ c ∈ cs ∧ c.id = i := by
  cases hs : site? i tree with
  | none => exact absurd h (site?_eq_none_iff.mp hs)
  | some s =>
    have hv := site?_valid hs
    have hr := site?_replaced hs s.siblings
    rw [hv.around_siblings] at hr
    exact ⟨s.siblings, s.found, hr, List.mem_append_right _ List.mem_cons_self, hv.found_id⟩

/-- A level is a list of the forest, unless it is that of a column without one. -/
private theorem listed_level {parent : Option String} {column : Option UInt64}
    (h : level? tree parent column = some cs) (hc : c ∈ cs) : Listed cs tree := by
  cases parent with
  | none =>
    obtain rfl := Option.some.inj h
    exact .here
  | some p =>
    obtain ⟨d, hd, h⟩ := Option.bind_eq_some_iff.mp h
    obtain ⟨place, hput, -⟩ := modifyIn?_place hd
    have hr := place.replaced_put d d
    rw [hput] at hr
    refine Replaced.inside ?_ hr
    cases d with
    | leaf => cases h
    | column i s widths cells =>
      simp only [childList?, Option.some.injEq] at h
      cases hk : cells[(column.getD 0).toNat]? with
      | none =>
        rw [hk] at h
        subst h
        cases hc
      | some l =>
        rw [hk] at h
        obtain rfl : l = cs := h
        obtain ⟨left, right, rfl⟩ := List.append_of_mem (List.mem_of_getElem? hk)
        exact .column place.left place.right i s widths left right .here
    | container i s children =>
      obtain rfl := Option.some.inj h
      exact .container place.left place.right i s .here

private theorem take_append_cons_drop {k : Nat} (h : cs[k]? = some c) :
    cs.take k ++ c :: cs.drop (k + 1) = cs := by
  obtain ⟨hk, rfl⟩ := List.getElem?_eq_some_iff.mp h
  rw [← List.drop_eq_getElem_cons hk, List.take_append_drop]

end Component

namespace Tree
variable {tree tree' cs before after : List Component} {a b c : Component}

/-- Where ids are distinct, any list with the component in it is the one in which it trades
places. -/
theorem move_of_replaced {d : Direction} (hn : (idsIn tree).Nodup)
    (h : Replaced (before ++ c :: after) (swapped d before c after) tree tree') :
    move tree c.id d = tree' :=
  (move_eq_throughout hn c.id d).trans (h.eq_editHere hn).symm

private theorem move_neighbours (hn : (idsIn tree).Nodup)
    (h : Replaced (before ++ a :: b :: after) (before ++ b :: a :: after) tree tree') :
    move tree a.id .down = tree' ∧ move tree b.id .up = tree' := by
  have hs : swapped .up (before ++ [a]) b after = before ++ b :: a :: after := by
    simp [swapped]
  have hup : Replaced ((before ++ [a]) ++ b :: after) (swapped .up (before ++ [a]) b after)
      tree tree' := by
    rw [hs, List.append_assoc]
    exact h
  exact ⟨move_of_replaced hn h, move_of_replaced hn hup⟩

/-- Where ids are distinct, any list with the component in it is the one that gets the copy. -/
theorem duplicate_of_replaced {σ : Type} [IdSource σ] {ids : σ} (hn : (idsIn tree).Nodup)
    (h : Replaced (before ++ c :: after) (before ++ c :: (refresh ids c).1 :: after) tree tree') :
    duplicate tree c.id ids = (some (refresh ids c).1.id, tree', (refresh ids c).2) := by
  have hmem : c ∈ before ++ c :: after := List.mem_append_right _ List.mem_cons_self
  have hfind := findIn?_of_mem hn (h.subset (subset_subtreesIn _ hmem))
  obtain ⟨s, hs, rfl⟩ := site?_of_findIn? hn hfind
  -- The list need not be the one that a search finds first; the edit made throughout is the same.
  have htree : s.around (s.before ++ s.found :: (refresh ids s.found).1 :: s.after) = tree' := by
    let copied before c after := before ++ c :: (refresh ids s.found).1 :: after
    have hsite := (site?_replaced hs (copied s.before s.found s.after)).eq_editHere (f := copied) hn
    exact hsite.trans (h.eq_editHere (f := copied) hn).symm
  rw [duplicate_of_site hs, htree]

/-- What a trade of places does in one list of a forest: at the ends nothing, and two neighbours
swap, either of them going towards the other, and swap back. -/
structure Trades (tree cs : List Component) : Prop where
  first : ∀ c, cs[0]? = some c → move tree c.id .up = tree
  last : ∀ k c, cs[k]? = some c → k + 1 = cs.length → move tree c.id .down = tree
  neighbours : ∀ k a b, cs[k]? = some a → cs[k + 1]? = some b → ∃ tree',
    Replaced cs (cs.take k ++ b :: a :: cs.drop (k + 2)) tree tree' ∧
      move tree a.id .down = tree' ∧ move tree b.id .up = tree' ∧
      move tree' a.id .up = tree ∧ move tree' b.id .down = tree

private theorem trades_of_listed (hn : (idsIn tree).Nodup) (h : Listed cs tree) :
    Trades tree cs where
  first c hc := by
    have hcs := take_append_cons_drop hc
    rw [Listed, ← hcs] at h
    exact move_of_replaced hn h
  last k c hc hk := by
    have hcs := take_append_cons_drop hc
    rw [List.drop_eq_nil_of_le (Nat.le_of_eq hk.symm)] at hcs
    rw [Listed, ← hcs] at h
    exact move_of_replaced hn h
  neighbours k a b ha hb := by
    have hcs : cs.take k ++ a :: b :: cs.drop (k + 2) = cs := by
      obtain ⟨hk, rfl⟩ := List.getElem?_eq_some_iff.mp hb
      rw [← List.drop_eq_getElem_cons hk]
      exact take_append_cons_drop ha
    obtain ⟨tree', hr⟩ := Replaced.exists_other h (cs.take k ++ b :: a :: cs.drop (k + 2))
    refine ⟨tree', hr, ?_⟩
    nth_rewrite 1 [← hcs] at hr
    obtain ⟨hdown, hup⟩ := move_neighbours hn hr
    have hn' := nodup_move hn a.id .down
    rw [hdown] at hn'
    obtain ⟨hdown', hup'⟩ := move_neighbours hn' hr.symm
    exact ⟨hdown, hup, hup', hdown'⟩

end Tree

namespace Mutation
variable {σ : Type} [IdSource σ] {tree cs : List Component} {c : Component}

/-- Both ways to name a component lead to the same edit, made at that component in the list that it
is addressed in. -/
structure ActsOn (tree : List Component) (ids : σ) (r : Ref) (cs : List Component) (k : Nat)
    (c : Component) : Prop where
  listed : Listed cs tree
  move : ∀ d, (Mutation.move r d).apply tree ids = .ok (⟨Tree.move tree c.id d, none⟩, ids) ∧
    (Mutation.move (.named c.id) d).apply tree ids = (Mutation.move r d).apply tree ids
  duplicate : ∃ copy tree', copy.unnamed = c.unnamed ∧
    Replaced cs (cs.take (k + 1) ++ copy :: cs.drop (k + 1)) tree tree' ∧
    (Mutation.duplicate r).apply tree ids = .ok (⟨tree', some copy.id⟩, after ids c.size) ∧
    (Mutation.duplicate (.named c.id)).apply tree ids = (Mutation.duplicate r).apply tree ids

private theorem actsOn_of_resolve? (hn : (idsIn tree).Nodup) (ids : σ) {r : Ref} {k : Nat}
    (hr : r.resolve? tree = some c.id) (h : Listed cs tree) (hc : cs[k]? = some c) :
    ActsOn tree ids r cs k c := by
  have hmem : c ∈ subtreesIn tree := h.subset (subset_subtreesIn cs (List.mem_of_getElem? hc))
  have hnamed : (Ref.named c.id).resolve? tree = some c.id :=
    if_pos (containsIn_iff.mpr (mem_idsIn.mpr ⟨c, hmem, rfl⟩))
  have hmove (r : Ref) (hr : r.resolve? tree = some c.id) (d : Direction) :
      (Mutation.move r d).apply tree ids = .ok (⟨Tree.move tree c.id d, none⟩, ids) :=
    apply_eq_ok_iff.mpr (.move hr)
  obtain ⟨tree', hcopied⟩ := Replaced.exists_other h
    (cs.take (k + 1) ++ (refresh ids c).1 :: cs.drop (k + 1))
  have hduplicate : Tree.duplicate tree c.id ids =
      (some (refresh ids c).1.id, tree', (refresh ids c).2) := by
    have htake : cs.take (k + 1) = cs.take k ++ [c] := by
      rw [List.take_add_one, hc]
      rfl
    have hbehind : Replaced (cs.take k ++ c :: cs.drop (k + 1))
        (cs.take k ++ c :: (refresh ids c).1 :: cs.drop (k + 1)) tree tree' := by
      rw [take_append_cons_drop hc]
      rwa [htake, List.append_assoc] at hcopied
    exact Tree.duplicate_of_replaced hn hbehind
  have hcopy (r : Ref) (hr : r.resolve? tree = some c.id) :
      (Mutation.duplicate r).apply tree ids =
        .ok (⟨tree', some (refresh ids c).1.id⟩, IdSource.after ids c.size) := by
    have happlied : Applied tree ids (.duplicate r) _ _ := .duplicate hr
    rw [hduplicate, (refresh_drawn ids c).2] at happlied
    exact apply_eq_ok_iff.mpr happlied
  refine ⟨h, fun d => ⟨hmove r hr d, ?_⟩, (refresh ids c).1, tree', unnamed_refresh ids c, hcopied,
    hcopy r hr, ?_⟩
  · rw [hmove _ hnamed, hmove r hr]
  · rw [hcopy _ hnamed, hcopy r hr]

private theorem apply_of_no_index {index : UInt64} {parent : Option String} {column : Option UInt64}
    (h : ((level? tree parent column).bind fun cs => cs[index.toNat]?) = none) (ids : σ) :
    (∀ d, (Mutation.move (.position index parent column) d).apply tree ids =
      .error (.noIndex index)) ∧
      (Mutation.duplicate (.position index parent column)).apply tree ids =
        .error (.noIndex index) := by
  have hr : resolve tree (.position index parent column) = .error (.noIndex index) := by
    simp only [resolve, Ref.resolve?, h, Option.map_none]
  constructor
  · intro d
    rw [apply, validate, hr]
    rfl
  · rw [apply, validate, hr]
    rfl

/-- Where ids are distinct, each component stands in a list of the forest, and in any list of it,
trades of places swap neighbours and no others. An index under a parent stands for the component
there: moves and copies by the index are those by its id, made in that list, and they are refused
just where there is no such list or no such index. -/
theorem trades_by_position (hn : (idsIn tree).Nodup) (ids : σ) :
    (∀ i ∈ idsIn tree, ∃ cs c, Listed cs tree ∧ c ∈ cs ∧ c.id = i) ∧
      (∀ cs, Listed cs tree → Tree.Trades tree cs) ∧
      ∀ index parent column,
        (∀ cs c, level? tree parent column = some cs → cs[index.toNat]? = some c →
          ActsOn tree ids (.position index parent column) cs index.toNat c) ∧
        (((level? tree parent column).bind fun cs => cs[index.toNat]?) = none →
          (∀ d, (Mutation.move (.position index parent column) d).apply tree ids =
            .error (.noIndex index)) ∧
            (Mutation.duplicate (.position index parent column)).apply tree ids =
              .error (.noIndex index)) := by
  refine ⟨fun i hi => exists_listed hi, fun cs h => Tree.trades_of_listed hn h,
    fun index parent column => ⟨fun cs c hcs hc => ?_, fun h => apply_of_no_index h ids⟩⟩
  have hr : (Ref.position index parent column).resolve? tree = some c.id := by
    rw [Ref.resolve?, hcs, Option.bind_some, hc, Option.map_some]
  exact actsOn_of_resolve? hn ids hr (listed_level hcs (List.mem_of_getElem? hc)) hc

/-- The first column of the shelf. -/
def books : List Component :=
  [.leaf "a" .empty .divider, .container "box" .empty [.leaf "b" .empty .divider],
    .leaf "c" .empty .divider]

def shelf : List Component :=
  [.leaf "top" .empty .divider, .column "row" .empty ["60%", "40%"] [books]]

theorem trades_by_position_shelf :
    let ids := SerialIds.ofSeed "s"
    (idsIn shelf).Nodup ∧ Listed books shelf ∧ Tree.move shelf "a" .up = shelf ∧
      (∃ tree', Replaced books (books.take 1 ++ books.drop 2 ++ [books[1]]) shelf tree' ∧
        Tree.move shelf "box" .down = tree' ∧ Tree.move tree' "box" .up = shelf) ∧
      level? shelf (some "row") (some 0) = some books ∧
      ActsOn shelf ids (.position 2 (some "row") (some 0)) books 2 books[2] ∧
      level? shelf (some "row") (some 1) = some [] ∧
      (Mutation.duplicate (.position 0 (some "row") (some 1))).apply shelf ids =
        .error (.noIndex 0) := by
  have hn : (idsIn shelf).Nodup := by decide
  have hlisted : Listed books shelf :=
    .column [.leaf "top" .empty .divider] [] "row" .empty ["60%", "40%"] [] [] .here
  obtain ⟨-, hlists, hindex⟩ := trades_by_position hn (SerialIds.ofSeed "s")
  have htrades := hlists books hlisted
  obtain ⟨tree', hr, hdown, -, hup, -⟩ := htrades.neighbours 1 _ _ rfl rfl
  exact ⟨hn, hlisted, htrades.first _ rfl, ⟨tree', hr, hdown, hup⟩, rfl,
    (hindex 2 (some "row") (some 0)).1 books _ rfl rfl, rfl,
    ((hindex 0 (some "row") (some 1)).2 rfl).2⟩

end Mutation

end MailComposer
