import MailComposer.Proofs.Tree.Removal

/-!
A walk through a forest, depth first, that notes for each component all those it lies in. It tells
the whole forest. A removal takes out of it what has the id or lies in a component that has it.
-/
namespace MailComposer.Component

/-- A component without its children; a row of columns keeps an empty list for each of its own. -/
def hollow : Component → Component
  | .leaf i s l => .leaf i s l
  | .column i s w cells => .column i s w (cells.map fun _ => [])
  | .container i s _ => .container i s []

/-- A component in a walk, and what it lies in: its parent first, each with the number of the list
that leads on to the component. -/
structure Visit where
  node : Component
  above : List (Component × Nat)

/-- The component has the id, or one that it lies in has it. -/
def Visit.Under (i : String) (v : Visit) : Prop := v.node.id = i ∨ ∃ a ∈ v.above, a.1.id = i

instance (i : String) : DecidablePred (Visit.Under i) := fun v =>
  inferInstanceAs (Decidable (v.node.id = i ∨ ∃ a ∈ v.above, a.1.id = i))

mutual

def visits (above : List (Component × Nat)) : Component → List Visit
  | .leaf i s l => [⟨hollow (.leaf i s l), above⟩]
  | .column i s w cells =>
    let row := hollow (.column i s w cells)
    ⟨row, above⟩ :: visitsInCells above row 0 cells
  | .container i s children =>
    let box := hollow (.container i s children)
    ⟨box, above⟩ :: visitsIn ((box, 0) :: above) children

def visitsIn (above : List (Component × Nat)) : List Component → List Visit
  | [] => []
  | c :: rest => visits above c ++ visitsIn above rest

def visitsInCells (above : List (Component × Nat)) (row : Component) (n : Nat) :
    List (List Component) → List Visit
  | [] => []
  | cs :: rest => visitsIn ((row, n) :: above) cs ++ visitsInCells above row (n + 1) rest

end

def walk (tree : List Component) : List Visit := visitsIn [] tree

@[simp] theorem id_hollow (c : Component) : c.hollow.id = c.id := by
  cases c <;> rfl

mutual

private theorem of_mem_visits : ∀ {c : Component} {above : List (Component × Nat)} {v : Visit},
    v ∈ visits above c → v = ⟨c.hollow, above⟩ ∨ ∃ n, (c.hollow, n) :: above <:+ v.above
  | .leaf .., _, _, h => .inl (List.mem_singleton.mp h)
  | .column .., _, _, h => by
    rcases List.mem_cons.mp h with rfl | h
    · exact .inl rfl
    · obtain ⟨k, -, hk⟩ := suffix_of_mem_visitsInCells h
      exact .inr ⟨k, hk⟩
  | .container .., _, _, h => by
    rcases List.mem_cons.mp h with rfl | h
    · exact .inl rfl
    · exact .inr ⟨0, suffix_of_mem_visitsIn h⟩

/-- Whatever a walk comes to in a list lies in all that the list lies in. -/
private theorem suffix_of_mem_visitsIn : ∀ {cs : List Component} {above : List (Component × Nat)}
    {v : Visit}, v ∈ visitsIn above cs → above <:+ v.above
  | c :: _, _, _, h => by
    rcases List.mem_append.mp h with h | h
    · rcases of_mem_visits h with rfl | ⟨n, hn⟩
      · exact List.suffix_refl _
      · exact (List.suffix_cons _ _).trans hn
    · exact suffix_of_mem_visitsIn h

private theorem suffix_of_mem_visitsInCells : ∀ {cells : List (List Component)}
    {above : List (Component × Nat)} {row : Component} {n : Nat} {v : Visit},
    v ∈ visitsInCells above row n cells → ∃ k, n ≤ k ∧ (row, k) :: above <:+ v.above
  | _ :: _, _, _, n, _, h => by
    rcases List.mem_append.mp h with h | h
    · exact ⟨n, Nat.le_refl n, suffix_of_mem_visitsIn h⟩
    · obtain ⟨k, hk, hs⟩ := suffix_of_mem_visitsInCells h
      exact ⟨k, Nat.le_of_succ_le hk, hs⟩

end

mutual

private theorem map_node_visits : ∀ (above : List (Component × Nat)) (c : Component),
    (visits above c).map (·.node.bare) = nodes c
  | _, .leaf .. => rfl
  | above, .column i s w cells =>
    congrArg (_ :: ·) (map_node_visitsInCells above (hollow (.column i s w cells)) 0 cells)
  | above, .container i s children =>
    congrArg (_ :: ·) (map_node_visitsIn ((hollow (.container i s children), 0) :: above) children)

private theorem map_node_visitsIn : ∀ (above : List (Component × Nat)) (cs : List Component),
    (visitsIn above cs).map (·.node.bare) = nodesIn cs
  | _, [] => rfl
  | above, c :: rest => by
    rw [visitsIn, List.map_append, map_node_visits above c, map_node_visitsIn above rest, nodesIn]

private theorem map_node_visitsInCells :
    ∀ (above : List (Component × Nat)) (row : Component) (n : Nat) (cells : List (List Component)),
    (visitsInCells above row n cells).map (·.node.bare) = nodesInCells cells
  | _, _, _, [] => rfl
  | above, row, n, cs :: rest => by
    rw [visitsInCells, List.map_append, map_node_visitsIn ((row, n) :: above) cs,
      map_node_visitsInCells above row (n + 1) rest, nodesInCells]

end

private theorem map_node_walk (tree : List Component) :
    (walk tree).map (·.node.bare) = nodesIn tree :=
  map_node_visitsIn [] tree

section
variable {i : String} {above : List (Component × Nat)}

private theorem hollow_prune (i : String) (c : Component) : (prune i c).hollow = c.hollow := by
  cases c with
  | leaf | container => rfl
  | column => rw [prune, pruneCells_eq_map, hollow, hollow, List.map_map]; rfl

private theorem under_of_mem_visits {c : Component} {v : Visit} (hc : c.id = i)
    (hv : v ∈ visits above c) : v.Under i := by
  rcases of_mem_visits hv with rfl | ⟨n, hn⟩
  · exact .inl ((id_hollow c).trans hc)
  · exact .inr ⟨_, hn.subset List.mem_cons_self, (id_hollow c).trans hc⟩

private theorem not_under_hollow {c : Component} (hc : c.id ≠ i) (ha : ∀ a ∈ above, a.1.id ≠ i) :
    ¬ Visit.Under i ⟨c.hollow, above⟩ := by
  rintro (h | ⟨a, hm, h⟩)
  · exact hc ((id_hollow c).symm.trans h)
  · exact ha a hm h

private theorem forall_mem_step {row : Component} (hr : row.id ≠ i) (ha : ∀ a ∈ above, a.1.id ≠ i)
    (n : Nat) : ∀ a ∈ (row, n) :: above, a.1.id ≠ i :=
  List.forall_mem_cons.mpr ⟨hr, ha⟩

mutual

private theorem visits_prune : ∀ {c : Component} {above : List (Component × Nat)}, c.id ≠ i →
    (∀ a ∈ above, a.1.id ≠ i) →
    visits above (prune i c) = (visits above c).filter fun v => ¬ v.Under i
  | .leaf .., _, hc, ha => by
    have hn := not_under_hollow hc ha
    rw [prune, visits, List.filter_cons, if_pos (decide_eq_true hn), List.filter_nil]
  | .column j s w cells, _, hc, ha => by
    have hn := not_under_hollow hc ha
    have hr := (id_hollow (.column j s w cells)).trans_ne hc
    have hh := hollow_prune i (.column j s w cells)
    rw [prune] at hh ⊢
    rw [visits, visits, hh, List.filter_cons, if_pos (decide_eq_true hn),
      visitsInCells_pruneCells hr ha]
  | .container j s children, _, hc, ha => by
    have hn := not_under_hollow hc ha
    have hr := (id_hollow (.container j s children)).trans_ne hc
    rw [visits, List.filter_cons, if_pos (decide_eq_true hn),
      ← visitsIn_pruneList (forall_mem_step hr ha 0)]
    rfl

private theorem visitsIn_pruneList : ∀ {cs : List Component} {above : List (Component × Nat)},
    (∀ a ∈ above, a.1.id ≠ i) →
    visitsIn above (pruneList i cs) = (visitsIn above cs).filter fun v => ¬ v.Under i
  | [], _, _ => rfl
  | c :: rest, above, ha => by
    rw [pruneList, visitsIn, List.filter_append, ← visitsIn_pruneList ha]
    split
    · next hc =>
      have hnone : (visits above c).filter (fun v => ¬ v.Under i) = [] :=
        List.filter_eq_nil_iff.mpr fun v hv => by simpa using under_of_mem_visits hc hv
      rw [hnone, List.nil_append]
    · next hc => rw [visitsIn, visits_prune hc ha]

private theorem visitsInCells_pruneCells : ∀ {cells : List (List Component)}
    {above : List (Component × Nat)} {row : Component} {n : Nat}, row.id ≠ i →
    (∀ a ∈ above, a.1.id ≠ i) →
    visitsInCells above row n (pruneCells i cells) =
      (visitsInCells above row n cells).filter fun v => ¬ v.Under i
  | [], _, _, _, _, _ => rfl
  | cs :: rest, _, _, n, hr, ha => by
    rw [pruneCells, visitsInCells, visitsInCells, List.filter_append,
      visitsIn_pruneList (forall_mem_step hr ha n), visitsInCells_pruneCells hr ha]

end

end

/-- Two equal lists split alike, if all before the split passes a test and what comes next fails. -/
private theorem append_inj_of_head? {α : Type} {p : α → Prop} {as bs xs ys : List α}
    (ha : ∀ a ∈ as, p a) (hb : ∀ b ∈ bs, p b) (hx : ∀ x ∈ xs.head?, ¬ p x)
    (hy : ∀ y ∈ ys.head?, ¬ p y) (h : as ++ xs = bs ++ ys) : as = bs ∧ xs = ys := by
  induction as generalizing bs with
  | nil =>
    cases bs with
    | nil => exact ⟨rfl, h⟩
    | cons b bs =>
      rw [List.nil_append] at h
      exact absurd (hb b List.mem_cons_self) (hx b (by rw [h]; rfl))
  | cons a as ih =>
    cases bs with
    | nil =>
      rw [List.nil_append] at h
      exact absurd (ha a List.mem_cons_self) (hy a (by rw [← h]; rfl))
    | cons b bs =>
      obtain ⟨rfl, htail⟩ := List.cons.inj h
      obtain ⟨rfl, hrest⟩ :=
        ih (List.forall_mem_cons.mp ha).2 (List.forall_mem_cons.mp hb).2 htail
      exact ⟨rfl, hrest⟩

section
variable {above : List (Component × Nat)}

/-- A component is come to before all that stands below it. -/
private theorem visits_eq_cons (above : List (Component × Nat)) (c : Component) :
    ∃ below, visits above c = ⟨c.hollow, above⟩ :: below ∧
      ∀ v ∈ below, above.length < v.above.length := by
  cases c with
  | leaf => exact ⟨[], rfl, nofun⟩
  | column i s w cells =>
    refine ⟨_, rfl, fun v hv => ?_⟩
    obtain ⟨k, -, hk⟩ := suffix_of_mem_visitsInCells hv
    exact hk.length_le
  | container i s children => exact ⟨_, rfl, fun v hv => (suffix_of_mem_visitsIn hv).length_le⟩

private theorem above_head?_visitsIn (cs : List Component) :
    ∀ v ∈ (visitsIn above cs).head?, v.above = above := by
  cases cs with
  | nil => exact nofun
  | cons c rest =>
    obtain ⟨below, hc, -⟩ := visits_eq_cons above c
    rw [visitsIn, hc]
    rintro v ⟨⟩
    rfl

private theorem visitsIn_cons_inj {c d : Component} {cs ds : List Component}
    (h : visitsIn above (c :: cs) = visitsIn above (d :: ds)) :
    visits above c = visits above d ∧ visitsIn above cs = visitsIn above ds := by
  obtain ⟨as, hc, ha⟩ := visits_eq_cons above c
  obtain ⟨bs, hd, hb⟩ := visits_eq_cons above d
  have next (es : List Component) :
      ∀ v ∈ (visitsIn above es).head?, ¬ above.length < v.above.length := fun v hv => by
    rw [above_head?_visitsIn es v hv]
    exact Nat.lt_irrefl _
  rw [visitsIn, visitsIn, hc, hd, List.cons_append, List.cons_append] at h
  obtain ⟨hroot, h⟩ := List.cons.inj h
  obtain ⟨hbelow, hrest⟩ := append_inj_of_head? ha hb (next cs) (next ds) h
  exact ⟨by rw [hc, hd, hroot, hbelow], hrest⟩

private theorem visitsInCells_cons_inj {row : Component} {n : Nat} {cs ds : List Component}
    {cells cells' : List (List Component)}
    (h : visitsInCells above row n (cs :: cells) = visitsInCells above row n (ds :: cells')) :
    visitsIn ((row, n) :: above) cs = visitsIn ((row, n) :: above) ds ∧
      visitsInCells above row (n + 1) cells = visitsInCells above row (n + 1) cells' := by
  have inside (es : List Component) : ∀ v ∈ visitsIn ((row, n) :: above) es,
      (row, n) :: above <:+ v.above := fun _ => suffix_of_mem_visitsIn
  have next (rest : List (List Component)) : ∀ v ∈ (visitsInCells above row (n + 1) rest).head?,
      ¬ (row, n) :: above <:+ v.above := fun v hv hn => by
    obtain ⟨k, hk, hs⟩ := suffix_of_mem_visitsInCells (List.mem_of_mem_head? hv)
    have he := (List.suffix_of_suffix_length_le hn hs (Nat.le_refl _)).eq_of_length rfl
    cases he
    omega
  exact append_inj_of_head? (inside cs) (inside ds) (next cells) (next cells') h

mutual

private theorem visits_injective : ∀ {c d : Component} {above : List (Component × Nat)},
    visits above c = visits above d → c = d
  | .leaf .., d, _, h => by
    cases d with
    | leaf => exact congrArg Visit.node (List.cons.inj h).1
    | column | container => cases h
  | .column _ _ _ cells, d, _, h => by
    cases d with
    | column _ _ _ cells' =>
      obtain ⟨hroot, h⟩ := List.cons.inj h
      have hnode := congrArg Visit.node hroot
      change hollow (.column ..) = hollow (.column ..) at hnode
      have hlen : cells.length = cells'.length := by
        simpa using congrArg List.length (Component.column.inj hnode).2.2.2
      rw [hnode] at h
      obtain ⟨rfl, rfl, rfl, -⟩ := Component.column.inj hnode
      rw [visitsInCells_injective hlen h]
    | leaf | container => cases h
  | .container _ _ children, d, _, h => by
    cases d with
    | container _ _ children' =>
      obtain ⟨hroot, h⟩ := List.cons.inj h
      have hnode := congrArg Visit.node hroot
      obtain ⟨rfl, rfl, -⟩ := Component.container.inj hnode
      rw [visitsIn_injective h]
    | leaf | column => cases h

private theorem visitsIn_injective : ∀ {cs ds : List Component} {above : List (Component × Nat)},
    visitsIn above cs = visitsIn above ds → cs = ds
  | [], [], _, _ => rfl
  | [], d :: _, above, h => by
    obtain ⟨_, hd, -⟩ := visits_eq_cons above d
    rw [visitsIn, visitsIn, hd] at h
    cases h
  | c :: _, [], above, h => by
    obtain ⟨_, hc, -⟩ := visits_eq_cons above c
    rw [visitsIn, visitsIn, hc] at h
    cases h
  | _ :: _, _ :: _, _, h => by
    obtain ⟨hc, hrest⟩ := visitsIn_cons_inj h
    rw [visits_injective hc, visitsIn_injective hrest]

private theorem visitsInCells_injective : ∀ {cells cells' : List (List Component)}
    {above : List (Component × Nat)} {row : Component} {n : Nat}, cells.length = cells'.length →
    visitsInCells above row n cells = visitsInCells above row n cells' → cells = cells'
  | [], [], _, _, _, _, _ => rfl
  | _ :: _, _ :: _, _, _, _, hlen, h => by
    obtain ⟨hcs, hrest⟩ := visitsInCells_cons_inj h
    rw [visitsIn_injective hcs, visitsInCells_injective (Nat.succ.inj hlen) hrest]

end

end

/-- No two forests have one walk. -/
theorem walk_injective : Function.Injective walk := fun _ _ => visitsIn_injective

end MailComposer.Component

namespace MailComposer.Tree
open Component

theorem walk_delete (tree : List Component) (i : String) :
    walk (delete tree i) = (walk tree).filter fun v => ¬ v.Under i :=
  visitsIn_pruneList nofun

/-- A removal takes out the subtrees of all components with the id. What stays keeps its place in
the walk, and with it its content, its parent, its column and the lists it has. -/
theorem delete_cuts_subtrees (tree : List Component) (i : String) :
    let kept := (walk tree).filter fun v => ¬ v.Under i
    walk (delete tree i) = kept ∧ nodesIn (delete tree i) = kept.map (·.node.bare) ∧
      delete (delete tree i) i = delete tree i ∧
      ∀ j, delete (delete tree i) j = delete (delete tree j) i := by
  refine ⟨walk_delete tree i, ?_, walk_injective ?_, fun j => walk_injective ?_⟩
  · rw [← walk_delete, map_node_walk]
  · rw [walk_delete, walk_delete, List.filter_filter]
    simp only [Bool.and_self]
  · rw [walk_delete, walk_delete, walk_delete, walk_delete, List.filter_comm]

end MailComposer.Tree
