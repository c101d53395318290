import MailComposer.Html.Document
import MailComposer.Proofs.Tree.Visible

/-!
Where the lines of a component stand in a document. Each visible component has its place, in the
order of the tree, and no line of a document is there that neither the page nor a component wrote.
-/
namespace MailComposer.Html
open Component (visible visibleIn visibleCells bare)

/-- A component among the lines of a document, from the line at which it starts. -/
structure Place where
  start : Nat
  depth : Nat
  component : Component

namespace Place

def lines (p : Place) : List Line := fragment p.depth p.component

/-- Those of its lines that it writes itself, around those of its children. -/
def own (p : Place) : List Line := fragment p.depth p.component.bare

end Place

mutual

/-- The places of a component and of all below it. -/
def places (start depth : Nat) : Component → List Place
  | .leaf i s l => [⟨start, depth, .leaf i s l⟩]
  | .column i s w contents =>
    ⟨start, depth, .column i s w contents⟩ :: placesCells (start + 2) (depth + 3) w.length contents
  | .container i s children =>
    ⟨start, depth, .container i s children⟩ :: placesIn (start + 1) (depth + 1) children

def placesIn (start depth : Nat) : List Component → List Place
  | [] => []
  | c :: rest =>
    places start depth c ++ placesIn (start + (fragment depth c).length) depth rest

/-- Each cell has a line before and a line behind its components. -/
def placesCells (start depth : Nat) : Nat → List (List Component) → List Place
  | _, [] => []
  | 0, _ :: _ => []
  | n + 1, cs :: rest =>
    placesIn (start + 1) depth cs ++
      placesCells (start + (fragmentList depth cs).length + 2) depth n rest

end

mutual

private theorem component_places : ∀ (start depth : Nat) (c : Component),
    (places start depth c).map Place.component = visible c
  | _, _, .leaf .. => rfl
  | _, _, .column _ _ w contents =>
    congrArg (_ :: ·) (component_placesCells _ _ w.length contents)
  | _, _, .container _ _ children => congrArg (_ :: ·) (component_placesIn _ _ children)

theorem component_placesIn : ∀ (start depth : Nat) (cs : List Component),
    (placesIn start depth cs).map Place.component = visibleIn cs
  | _, _, [] => rfl
  | _, _, c :: rest => by
    rw [placesIn, List.map_append, component_places _ _ c, component_placesIn _ _ rest, visibleIn]

private theorem component_placesCells : ∀ (start depth n : Nat) (contents : List (List Component)),
    (placesCells start depth n contents).map Place.component = visibleCells n contents
  | _, _, n, [] => by simp [placesCells, visibleCells]
  | _, _, 0, _ :: _ => by simp [placesCells, visibleCells]
  | _, _, n + 1, cs :: rest => by
    rw [placesCells, List.map_append, component_placesIn _ _ cs,
      component_placesCells _ _ n rest, visibleCells]

end

/-- The lines stand in the document, one after the other, from a line on. -/
def StandsAt (doc : List Line) (start : Nat) (ls : List Line) : Prop := ls <+: doc.drop start

section
variable {doc as bs ls : List Line} {start depth : Nat}

private theorem standsAt_append :
    StandsAt doc start (as ++ bs) ↔
      StandsAt doc start as ∧ StandsAt doc (start + as.length) bs := by
  unfold StandsAt
  constructor
  · rintro ⟨rest, h⟩
    refine ⟨⟨bs ++ rest, by rw [← h, List.append_assoc]⟩, rest, ?_⟩
    rw [← List.drop_drop, ← h, List.append_assoc, List.drop_left]
  · rintro ⟨⟨rest, h⟩, hb⟩
    rw [← List.drop_drop, ← h, List.drop_left] at hb
    rw [← h]
    exact List.prefix_append_right_inj as |>.mpr hb

theorem StandsAt.inside {opening closing : String}
    (h : StandsAt doc start (block depth opening closing ls)) : StandsAt doc (start + 1) ls := by
  rw [block, ← List.singleton_append, standsAt_append, standsAt_append] at h
  exact h.2.1

end

@[simp] theorem length_block (depth : Nat) (opening closing : String) (ls : List Line) :
    (block depth opening closing ls).length = ls.length + 2 := by
  simp [block]

private theorem length_leaf_pos (depth : Nat) (s : StyleMap) (l : Leaf) :
    0 < (leaf depth s l).length := by
  cases l <;> simp [leaf, paragraph, heading, image, button, divider, spacer, list]

theorem length_fragment_pos (depth : Nat) (c : Component) : 0 < (fragment depth c).length := by
  cases c with
  | leaf => exact length_leaf_pos ..
  | column => simp [fragment, columns]
  | container => simp [fragment, container]

mutual

private theorem standsAt_places {doc : List Line} : ∀ {start depth : Nat} {c : Component},
    StandsAt doc start (fragment depth c) →
    ∀ p ∈ places start depth c, StandsAt doc p.start p.lines
  | _, _, .leaf .., h, p, hp => List.mem_singleton.mp hp ▸ h
  | _, _, .column .., h, p, hp => by
    rcases List.mem_cons.mp hp with rfl | hp
    · exact h
    · exact standsAt_placesCells h.inside.inside p hp
  | _, _, .container .., h, p, hp => by
    rcases List.mem_cons.mp hp with rfl | hp
    · exact h
    · exact standsAt_placesIn h.inside p hp

/-- Where the lines of components stand, those of each of them stand at its place. -/
theorem standsAt_placesIn {doc : List Line} : ∀ {start depth : Nat} {cs : List Component},
    StandsAt doc start (fragmentList depth cs) →
    ∀ p ∈ placesIn start depth cs, StandsAt doc p.start p.lines
  | _, _, c :: rest, h, p, hp => by
    obtain ⟨hc, hr⟩ := standsAt_append.mp h
    rcases List.mem_append.mp hp with hp | hp
    · exact standsAt_places hc p hp
    · exact standsAt_placesIn hr p hp

private theorem standsAt_placesCells {doc : List Line} : ∀ {start depth outer : Nat}
    {widths : List String} {contents : List (List Component)},
    StandsAt doc start (cells outer widths (fragmentCells depth contents)) →
    ∀ p ∈ placesCells start depth widths.length contents, StandsAt doc p.start p.lines
  | _, _, _, _, [], _, p, hp => by simp [placesCells] at hp
  | _, _, _, [], _ :: _, _, p, hp => by simp [placesCells] at hp
  | start, depth, outer, width :: widths, cs :: rest, h, p, hp => by
    obtain ⟨hc, hr⟩ := standsAt_append.mp h
    rw [length_block] at hr
    rcases List.mem_append.mp hp with hp | hp
    · exact standsAt_placesIn hc.inside p hp
    · exact standsAt_placesCells hr p hp

end

mutual

private theorem start_places : ∀ {start depth : Nat} {c : Component}, ∀ p ∈ places start depth c,
    start ≤ p.start ∧ p.start < start + (fragment depth c).length
  | start, depth, .leaf i s l, p, hp => by
    obtain rfl := List.mem_singleton.mp hp
    have := length_fragment_pos depth (.leaf i s l)
    exact ⟨Nat.le_refl _, by dsimp only; omega⟩
  | start, depth, .column i s w contents, p, hp => by
    have hlen : (fragment depth (.column i s w contents)).length =
        (cells (depth + 2) w (fragmentCells (depth + 3) contents)).length + 4 := by
      simp [fragment, columns]
    rcases List.mem_cons.mp hp with rfl | hp
    · exact ⟨Nat.le_refl _, by dsimp only; omega⟩
    · have := start_placesCells (depth + 2) p hp
      omega
  | start, depth, .container i s children, p, hp => by
    have hlen : (fragment depth (.container i s children)).length =
        (fragmentList (depth + 1) children).length + 2 := by
      simp [fragment, container]
    rcases List.mem_cons.mp hp with rfl | hp
    · exact ⟨Nat.le_refl _, by dsimp only; omega⟩
    · have := start_placesIn p hp
      omega

private theorem start_placesIn :
    ∀ {start depth : Nat} {cs : List Component}, ∀ p ∈ placesIn start depth cs,
    start ≤ p.start ∧ p.start < start + (fragmentList depth cs).length
  | start, depth, c :: rest, p, hp => by
    rw [fragmentList, List.length_append]
    rcases List.mem_append.mp hp with hp | hp
    · have := start_places p hp
      omega
    · have := start_placesIn p hp
      omega

private theorem start_placesCells : ∀ {start depth : Nat} (outer : Nat) {widths : List String}
    {contents : List (List Component)}, ∀ p ∈ placesCells start depth widths.length contents,
    start ≤ p.start ∧
      p.start < start + (cells outer widths (fragmentCells depth contents)).length
  | _, _, _, _, [], p, hp => by simp [placesCells] at hp
  | _, _, _, [], _ :: _, p, hp => by simp [placesCells] at hp
  | start, depth, outer, width :: widths, cs :: rest, p, hp => by
    rw [fragmentCells, cells, List.length_append, length_block]
    rcases List.mem_append.mp hp with hp | hp
    · have := start_placesIn p hp
      dsimp only [List.head?_cons, Option.getD_some]
      omega
    · have := start_placesCells outer p hp
      dsimp only [List.head?_cons, Option.getD_some, List.tail_cons]
      omega

end

/-- Places in the order in which they start. -/
def Ascending (ps : List Place) : Prop := ps.Pairwise fun p q => p.start < q.start

private theorem lt_start_placesCells {depth : Nat} {p : Place} :
    ∀ {start n : Nat} {contents : List (List Component)},
      p ∈ placesCells start depth n contents → start < p.start
  | _, n, [], hp => by simp [placesCells] at hp
  | _, 0, _ :: _, hp => by simp [placesCells] at hp
  | _, n + 1, cs :: rest, hp => by
    rcases List.mem_append.mp hp with hp | hp
    · have := start_placesIn p hp
      omega
    · have := lt_start_placesCells hp
      omega

mutual

private theorem ascending_places : ∀ (start depth : Nat) (c : Component),
    Ascending (places start depth c)
  | _, _, .leaf .. => List.pairwise_singleton _ _
  | start, depth, .column _ _ w contents => by
    refine List.pairwise_cons.mpr ⟨fun p hp => ?_, ascending_placesCells _ _ w.length contents⟩
    have := lt_start_placesCells hp
    dsimp only
    omega
  | start, depth, .container _ _ children => by
    refine List.pairwise_cons.mpr ⟨fun p hp => ?_, ascending_placesIn _ _ children⟩
    have := start_placesIn p hp
    dsimp only
    omega

theorem ascending_placesIn : ∀ (start depth : Nat) (cs : List Component),
    Ascending (placesIn start depth cs)
  | _, _, [] => List.Pairwise.nil
  | start, depth, c :: rest => by
    refine List.pairwise_append.mpr
      ⟨ascending_places _ _ c, ascending_placesIn _ _ rest, fun p hp q hq => ?_⟩
    have := start_places p hp
    have := start_placesIn q hq
    omega

private theorem ascending_placesCells : ∀ (start depth n : Nat) (contents : List (List Component)),
    Ascending (placesCells start depth n contents)
  | _, _, n, [] => by simp [placesCells, Ascending]
  | _, _, 0, _ :: _ => by simp [placesCells, Ascending]
  | start, depth, n + 1, cs :: rest => by
    refine List.pairwise_append.mpr
      ⟨ascending_placesIn _ _ cs, ascending_placesCells _ _ n rest, fun p hp q hq => ?_⟩
    have := start_placesIn p hp
    have := lt_start_placesCells hq
    omega

end

private theorem block_perm {ls own below : List Line} (h : ls.Perm (own ++ below)) (depth : Nat)
    (opening closing : String) :
    (block depth opening closing ls).Perm (block depth opening closing own ++ below) := by
  let last : Line := ⟨depth, closing⟩
  have hend : (ls ++ [last]).Perm (own ++ [last] ++ below) := by
    refine (h.append_right [last]).trans ?_
    rw [List.append_assoc, List.append_assoc]
    exact List.perm_append_comm.append_left own
  exact hend.cons _

mutual

private theorem own_places : ∀ (start depth : Nat) (c : Component),
    (fragment depth c).Perm ((places start depth c).flatMap Place.own)
  | _, _, .leaf .. => by simp [places, Place.own, bare]
  | start, depth, .column i s w contents =>
    block_perm (block_perm (own_placesCells (start + 2) (depth + 3) (depth + 2) w contents) ..) ..
  | start, depth, .container i s children =>
    block_perm (own_placesIn (start + 1) (depth + 1) children) ..

/-- The lines of components are those that each of them writes itself, none of them twice. -/
theorem own_placesIn : ∀ (start depth : Nat) (cs : List Component),
    (fragmentList depth cs).Perm ((placesIn start depth cs).flatMap Place.own)
  | _, _, [] => .refl _
  | start, depth, c :: rest => by
    rw [fragmentList, placesIn, List.flatMap_append]
    exact (own_places start depth c).append (own_placesIn _ depth rest)

private theorem own_placesCells : ∀ (start depth outer : Nat) (widths : List String)
    (contents : List (List Component)),
    (cells outer widths (fragmentCells depth contents)).Perm
      (cells outer widths [] ++ (placesCells start depth widths.length contents).flatMap Place.own)
  | start, depth, outer, widths, [] => by simp [placesCells, fragmentCells]
  | start, depth, outer, [], _ :: _ => by simp [placesCells, cells]
  | start, depth, outer, width :: widths, cs :: rest => by
    have hin : (fragmentList depth cs).Perm
        ([] ++ (placesIn (start + 1) depth cs).flatMap Place.own) :=
      own_placesIn (start + 1) depth cs
    have hc := block_perm hin outer (cellOpening width) "</td>"
    have hr := own_placesCells (start + (fragmentList depth cs).length + 2) depth outer widths rest
    refine (hc.append hr).trans ?_
    rw [List.length_cons, placesCells, List.flatMap_append]
    simp only [cells, List.head?_nil, Option.getD_none, List.tail_nil, List.append_assoc]
    refine List.Perm.append_left _ ?_
    simp only [← List.append_assoc]
    exact List.perm_append_comm.append_right _

end

private theorem length_cells_nil (depth : Nat) (widths : List String) :
    (cells depth widths []).length = 2 * widths.length := by
  induction widths with
  | nil => rfl
  | cons width widths ih =>
    rw [cells, List.length_append, length_block, List.head?_nil, List.tail_nil, ih,
      List.length_cons]
    simp only [Option.getD_none, List.length_nil]
    omega

/-- A component writes as many lines itself at one depth as at another. -/
theorem length_fragment_bare (depth : Nat) (c : Component) :
    (fragment depth c.bare).length = (fragment 0 c.bare).length := by
  cases c with
  | leaf i s l =>
    cases l <;> simp [bare, fragment, leaf, paragraph, heading, image, button, divider, spacer, list]
  | column => simp [bare, fragment, columns, fragmentCells, length_cells_nil]
  | container => simp [bare, fragment, container, fragmentList]

end MailComposer.Html
