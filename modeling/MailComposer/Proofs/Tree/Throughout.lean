import MailComposer.Proofs.Tree.Replaced

/-!
An edit made in every list of a forest, innermost lists first. An edit of the one list that has an
id in it can be made throughout as well: it does nothing elsewhere. Such edits commute where they do
in one list, with whatever stands below it.
-/
namespace MailComposer.Component

/-- The lists of children that a component has itself. -/
def lists : Component → List (List Component)
  | .leaf .. => []
  | .column _ _ _ cells => cells
  | .container _ _ children => [children]

def mapLists (m : List Component → List Component) : Component → Component
  | .leaf i s l => .leaf i s l
  | .column i s w cells => .column i s w (cells.map m)
  | .container i s children => .container i s (m children)

@[simp] theorem id_mapLists (m : List Component → List Component) (c : Component) :
    (mapLists m c).id = c.id := by
  cases c <;> rfl

theorem lists_mapLists (m : List Component → List Component) (c : Component) :
    (mapLists m c).lists = c.lists.map m := by
  cases c <;> rfl

private theorem mapLists_mapLists (m m' : List Component → List Component) (c : Component) :
    mapLists m (mapLists m' c) = mapLists (fun l => m (m' l)) c := by
  cases c with
  | leaf => rfl
  | column => simp only [mapLists, List.map_map, Function.comp_def]
  | container => rfl

theorem mapLists_congr {m m' : List Component → List Component} {c : Component}
    (h : ∀ l ∈ c.lists, m l = m' l) : mapLists m c = mapLists m' c := by
  cases c with
  | leaf => rfl
  | column => exact congrArg (Component.column _ _ _) (List.map_congr_left h)
  | container i s children =>
    exact congrArg (Component.container i s) (h children List.mem_cons_self)

private theorem mapLists_eq_self {m : List Component → List Component} {c : Component}
    (h : ∀ l ∈ c.lists, m l = l) : mapLists m c = c := by
  rw [mapLists_congr h]
  cases c with
  | leaf => rfl
  | column => exact congrArg (Component.column _ _ _) (List.map_id' _)
  | container => rfl

private theorem map_mapLists_eq_self {m : List Component → List Component} {cs : List Component}
    (h : ∀ c ∈ cs, ∀ l ∈ c.lists, m l = l) : cs.map (mapLists m) = cs :=
  (List.map_congr_left fun c hc => mapLists_eq_self (h c hc)).trans (List.map_id' cs)

private theorem sizeList_le_of_mem {cells : List (List Component)} {l : List Component}
    (h : l ∈ cells) : sizeList l ≤ sizeCells cells := by
  induction cells with
  | nil => cases h
  | cons cs rest ih =>
    rw [sizeCells]
    rcases List.mem_cons.mp h with rfl | h
    · exact Nat.le_add_right ..
    · exact Nat.le_add_left_of_le (ih h)

private theorem sizeList_lt_size {c : Component} {l : List Component} (h : l ∈ c.lists) :
    sizeList l < c.size := by
  cases c with
  | leaf => cases h
  | column i s w cells =>
    have hl : sizeList l ≤ sizeCells cells := sizeList_le_of_mem h
    rw [size]
    omega
  | container i s children =>
    obtain rfl := List.mem_singleton.mp h
    rw [size]
    omega

private theorem size_le_sizeList {c : Component} {cs : List Component} (h : c ∈ cs) :
    c.size ≤ sizeList cs := by
  induction cs with
  | nil => cases h
  | cons d rest ih =>
    rw [sizeList]
    rcases List.mem_cons.mp h with rfl | h
    · exact Nat.le_add_right ..
    · exact Nat.le_add_left_of_le (ih h)

/-- What holds of a list once it holds of all lists right below it holds of every forest. -/
theorem forest_induction {P : List Component → Prop}
    (step : ∀ cs, (∀ c ∈ cs, ∀ l ∈ c.lists, P l) → P cs) (cs : List Component) : P cs :=
  step cs fun _ hc l hl =>
    have : sizeList l < sizeList cs :=
      Nat.lt_of_lt_of_le (sizeList_lt_size hl) (size_le_sizeList hc)
    forest_induction step l
termination_by sizeList cs

def idsBelow (c : Component) : List String := c.lists.flatMap idsIn

private theorem ids_eq_cons (c : Component) : c.ids = c.id :: c.idsBelow := by
  have cells (cells : List (List Component)) :
      (nodesInCells cells).map id = cells.flatMap idsIn := by
    induction cells with
    | nil => rfl
    | cons cs rest ih => rw [nodesInCells, List.map_append, ih, List.flatMap_cons, idsIn]
  cases c with
  | leaf => rfl
  | column i s w cs => exact congrArg (i :: ·) (cells cs)
  | container i s children =>
    rw [idsBelow, lists, List.flatMap_singleton]
    rfl

theorem count_idsIn (i : String) (cs : List Component) : (idsIn cs).count i =
    (cs.map id).count i + (cs.flatMap idsBelow).count i := by
  induction cs with
  | nil => rfl
  | cons c rest ih =>
    rw [idsIn_cons, ids_eq_cons, List.map_cons, List.flatMap_cons, List.cons_append]
    simp only [List.count_cons, List.count_append, ih]
    omega

theorem mem_idsIn_iff {i : String} {cs : List Component} :
    i ∈ idsIn cs ↔ i ∈ cs.map id ∨ i ∈ cs.flatMap idsBelow := by
  rw [← List.count_pos_iff, count_idsIn, ← List.count_pos_iff, ← List.count_pos_iff]
  omega

private theorem id_ne_of_count {i : String} {cs : List Component} (h : (cs.map id).count i = 0) :
    ∀ c ∈ cs, c.id ≠ i :=
  fun _ hc hi => List.count_eq_zero.mp h (hi ▸ List.mem_map_of_mem hc)

theorem mem_idsIn_of_lists {i : String} {cs l : List Component} {c : Component} (hc : c ∈ cs)
    (hl : l ∈ c.lists) (hi : i ∈ idsIn l) : i ∈ cs.flatMap idsBelow :=
  List.mem_flatMap.mpr ⟨c, hc, List.mem_flatMap.mpr ⟨l, hl, hi⟩⟩

section
variable (g : List Component → List Component)

mutual

/-- A component with the edit made in all lists below it. -/
def inside : Component → Component
  | .leaf i s l => .leaf i s l
  | .column i s w cells => .column i s w (insideCells cells)
  | .container i s children => .container i s (g (insideList children))

def insideList : List Component → List Component
  | [] => []
  | c :: rest => inside c :: insideList rest

def insideCells : List (List Component) → List (List Component)
  | [] => []
  | cs :: rest => g (insideList cs) :: insideCells rest

end

/-- The edit is made in all lists of a forest, in each after those below it. -/
def throughout (tree : List Component) : List Component := g (insideList g tree)

private theorem insideCells_eq_map (cells : List (List Component)) :
    insideCells g cells = cells.map (throughout g) := by
  induction cells with
  | nil => rfl
  | cons cs rest ih => rw [insideCells, ih, List.map_cons, throughout]

private theorem inside_eq_mapLists (c : Component) : inside g c = mapLists (throughout g) c := by
  cases c with
  | leaf => rfl
  | column => rw [inside, insideCells_eq_map, mapLists]
  | container => rfl

theorem throughout_eq (tree : List Component) :
    throughout g tree = g (tree.map (mapLists (throughout g))) := by
  have hlist (cs : List Component) : insideList g cs = cs.map (mapLists (throughout g)) := by
    induction cs with
    | nil => rfl
    | cons c rest ih => rw [insideList, ih, inside_eq_mapLists, List.map_cons]
  rw [← hlist, throughout]

end

section
variable {g : List Component → List Component} {i : String}

/-- An edit of lists that leaves those without the id as they are. -/
def Aimed (i : String) (g : List Component → List Component) : Prop :=
  ∀ cs, (∀ c ∈ cs, c.id ≠ i) → g cs = cs

/-- Where no list has the id in it, an edit for the id does nothing. -/
theorem throughout_of_absent (hg : Aimed i g) (tree : List Component)
    (h : i ∉ idsIn tree) : throughout g tree = tree := by
  induction tree using forest_induction with
  | step cs ih =>
    have hcount := List.count_eq_zero.mpr h
    rw [count_idsIn, Nat.add_eq_zero_iff] at hcount
    rw [throughout_eq, map_mapLists_eq_self fun c hc l hl => ih c hc l hl fun hi =>
      List.count_eq_zero.mp hcount.2 (mem_idsIn_of_lists hc hl hi)]
    exact hg cs (id_ne_of_count hcount.1)

private theorem throughout_lists_of_absent (hg : Aimed i g) {cs : List Component}
    (h : i ∉ cs.flatMap idsBelow) :
    cs.map (mapLists (throughout g)) = cs :=
  map_mapLists_eq_self fun _ hc l hl =>
    throughout_of_absent hg l fun hi => h (mem_idsIn_of_lists hc hl hi)

theorem Replaced.mem_idsIn {old new tree tree' : List Component}
    (h : Replaced old new tree tree') (hi : i ∈ old.map id) : i ∈ idsIn tree := by
  obtain ⟨c, hc, rfl⟩ := List.mem_map.mp hi
  exact Component.mem_idsIn.mpr ⟨c, h.subset (subset_subtreesIn old hc), rfl⟩

/-- Where the id stands once, and below one of the components, the edit shows in that one only. -/
private theorem throughout_around (hg : Aimed i g) {before after : List Component}
    {c : Component} (hc : i ∈ c.idsBelow)
    (hn : (idsIn (before ++ c :: after)).count i ≤ 1) :
    throughout g (before ++ c :: after) = before ++ mapLists (throughout g) c :: after := by
  have hpos := List.count_pos_iff.mpr hc
  rw [count_idsIn] at hn
  simp only [List.flatMap_append, List.flatMap_cons, List.count_append] at hn
  have hbefore : before.map (mapLists (throughout g)) = before :=
    throughout_lists_of_absent hg (List.count_eq_zero.mp (by omega))
  have hafter : after.map (mapLists (throughout g)) = after :=
    throughout_lists_of_absent hg (List.count_eq_zero.mp (by omega))
  have htop : ∀ d ∈ before ++ c :: after, d.id ≠ i := id_ne_of_count (by omega)
  have hid : ∀ d ∈ before ++ mapLists (throughout g) c :: after, d.id ≠ i := by
    simpa only [List.forall_mem_append, List.forall_mem_cons, id_mapLists] using htop
  rw [throughout_eq, List.map_append, List.map_cons, hbefore, hafter, hg _ hid]

private theorem map_throughout_around (hg : Aimed i g)
    {left right : List (List Component)} {cs : List Component} (hcs : i ∈ idsIn cs)
    (hn : ((left ++ cs :: right).flatMap idsIn).count i ≤ 1) :
    (left ++ cs :: right).map (throughout g) = left ++ throughout g cs :: right := by
  have hpos := List.count_pos_iff.mpr hcs
  simp only [List.flatMap_append, List.flatMap_cons, List.count_append] at hn
  have absent {cells : List (List Component)} (h : (cells.flatMap idsIn).count i = 0) :
      cells.map (throughout g) = cells :=
    (List.map_congr_left fun l hl => throughout_of_absent hg l fun hi =>
      List.count_eq_zero.mp h (List.mem_flatMap.mpr ⟨l, hl, hi⟩)).trans (List.map_id' cells)
  rw [List.map_append, List.map_cons, absent (by omega), absent (by omega)]

private theorem count_below_le {before after : List Component} {c : Component}
    (hn : (idsIn (before ++ c :: after)).count i ≤ 1) :
    c.idsBelow.count i ≤ 1 := by
  rw [count_idsIn] at hn
  simp only [List.flatMap_append, List.flatMap_cons, List.count_append] at hn
  omega

theorem Replaced.count_le {old new tree tree' : List Component}
    (h : Replaced old new tree tree') (i : String) :
    (idsIn old).count i ≤ (idsIn tree).count i := by
  induction h with
  | here => exact Nat.le_refl _
  | @container cs cs' before after j s h ih =>
    simp only [idsIn_append, idsIn_cons, ids_eq_cons, idsBelow, lists, List.flatMap_cons,
      List.count_append, List.count_cons]
    omega
  | @column cs cs' before after j s widths left right h ih =>
    simp only [idsIn_append, idsIn_cons, ids_eq_cons, idsBelow, lists, List.flatMap_append,
      List.flatMap_cons, List.count_append, List.count_cons]
    omega

theorem Replaced.nodup {old new tree tree' : List Component} (h : Replaced old new tree tree')
    (hn : (idsIn tree).Nodup) : (idsIn old).Nodup :=
  List.nodup_iff_count_le_one.mpr fun i =>
    Nat.le_trans (h.count_le i) (List.nodup_iff_count_le_one.mp hn i)

/-- Where ids are distinct, no other component of a list has the id of one. -/
theorem id_ne_of_around {before after : List Component} {c : Component}
    (hn : (idsIn (before ++ c :: after)).Nodup) :
    (∀ d ∈ before, d.id ≠ c.id) ∧ ∀ d ∈ after, d.id ≠ c.id := by
  have hle := List.nodup_iff_count_le_one.mp hn c.id
  rw [count_idsIn] at hle
  simp only [List.map_append, List.map_cons, List.count_append, List.count_cons_self] at hle
  exact ⟨id_ne_of_count (by omega), id_ne_of_count (by omega)⟩

/-- Where an id stands once, to edit the one list with the id in it is to make the edit
throughout. -/
theorem Replaced.eq_throughout {old new tree tree' : List Component}
    (h : Replaced old new tree tree') (hg : Aimed i g) (hnew : g old = new)
    (hi : i ∈ old.map id) (hn : (idsIn tree).count i ≤ 1) : tree' = throughout g tree := by
  induction h with
  | here =>
    have hold := List.count_pos_iff.mpr hi
    rw [count_idsIn] at hn
    have hbelow : old.map (mapLists (throughout g)) = old :=
      throughout_lists_of_absent hg (List.count_eq_zero.mp (by omega))
    rw [throughout_eq, hbelow, hnew]
  -- The id stands below one component: neither its list nor its siblings have it.
  | @container cs cs' before after j s h ih =>
    have hcs : i ∈ (Component.container j s cs).idsBelow := by
      simpa [idsBelow, lists] using h.mem_idsIn hi
    have hle : ([cs].flatMap idsIn).count i ≤ 1 := count_below_le hn
    rw [List.flatMap_singleton] at hle
    rw [throughout_around hg hcs hn, mapLists, ih hle]
  | @column cs cs' before after j s widths left right h ih =>
    have hcs := h.mem_idsIn hi
    have hcells : i ∈ (Component.column j s widths (left ++ cs :: right)).idsBelow :=
      List.mem_flatMap.mpr ⟨cs, List.mem_append_right _ List.mem_cons_self, hcs⟩
    have hle : ((left ++ cs :: right).flatMap idsIn).count i ≤ 1 := count_below_le hn
    rw [throughout_around hg hcells hn, mapLists, map_throughout_around hg hcs hle, ih]
    simp only [List.flatMap_append, List.flatMap_cons, List.count_append] at hle
    omega

theorem Replaced.eq_throughout_of_nodup {before after new tree tree' : List Component}
    {c : Component} (h : Replaced (before ++ c :: after) new tree tree') (hg : Aimed c.id g)
    (hnew : g (before ++ c :: after) = new) (hn : (idsIn tree).Nodup) :
    tree' = throughout g tree :=
  h.eq_throughout hg hnew (List.mem_map_of_mem (List.mem_append_right _ List.mem_cons_self))
    (List.nodup_iff_count_le_one.mp hn c.id)

end

section
variable {g : List Component → List Component} {f : Component → Component}

/-- An edit of lists and one of components take effect in either order, if in one list they do,
whatever is done to the lists below. -/
theorem throughout_comm (hnil : g [] = [])
    (hf : ∀ m, m [] = [] → ∀ c, f (mapLists m c) = mapLists m (f c))
    (hg : ∀ m, m [] = [] → ∀ cs,
      g (cs.map fun c => f (mapLists m c)) = (g cs).map fun c => f (mapLists m c))
    (tree : List Component) :
    throughout g (throughout (List.map f) tree) = throughout (List.map f) (throughout g tree) := by
  induction tree using forest_induction with
  | step cs ih =>
    let h := throughout (List.map f)
    have hh (l : List Component) : h l = l.map fun c => f (mapLists h c) :=
      (throughout_eq (List.map f) l).trans List.map_map
    have hc : ∀ c ∈ cs, mapLists (throughout g) (f (mapLists h c)) =
        f (mapLists h (mapLists (throughout g) c)) := by
      intro c hc
      rw [← hf (throughout g) hnil, mapLists_mapLists, mapLists_mapLists,
        mapLists_congr (ih c hc)]
    -- Below each component the edits commute by induction; in `cs` itself, they do by `hg`.
    calc throughout g (h cs)
      _ = g (cs.map fun c => mapLists (throughout g) (f (mapLists h c))) := by
        rw [throughout_eq, hh, List.map_map]
        rfl
      _ = g ((cs.map (mapLists (throughout g))).map fun c => f (mapLists h c)) := by
        rw [List.map_congr_left hc, List.map_map]
        rfl
      _ = (g (cs.map (mapLists (throughout g)))).map fun c => f (mapLists h c) := hg h rfl _
      _ = h (throughout g cs) := by rw [hh, ← throughout_eq g]

end

/-- Edits a list at the first component that has the id itself, if there is one. -/
def editHere (i : String) (f : List Component → Component → List Component → List Component)
    (cs : List Component) : List Component :=
  (siteHere? i cs).elim cs fun s => f s.before s.found s.after

section
variable {i : String} {f : List Component → Component → List Component → List Component}

theorem aimed_editHere : Aimed i (editHere i f) := by
  intro cs h
  rw [editHere, siteHere?_eq_none_iff.mpr h, Option.elim_none]

private theorem editHere_around {before : List Component} {c : Component}
    (hb : ∀ b ∈ before, b.id ≠ i) (hc : c.id = i) (after : List Component) :
    editHere i f (before ++ c :: after) = f before c after := by
  rw [editHere, siteHere?_around hb hc, Option.elim_some]

/-- Where ids are distinct, an edit at a component of a list is one that is made throughout. -/
theorem Replaced.eq_editHere {before after tree tree' : List Component} {c : Component}
    (h : Replaced (before ++ c :: after) (f before c after) tree tree') (hn : (idsIn tree).Nodup) :
    tree' = throughout (editHere c.id f) tree := by
  have hb := (id_ne_of_around (h.nodup hn)).1
  exact h.eq_throughout_of_nodup aimed_editHere (editHere_around hb rfl after) hn

end

end MailComposer.Component
