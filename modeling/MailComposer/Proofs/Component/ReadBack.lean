import MailComposer.Component.Json
import MailComposer.Proofs.Json.Records
import MailComposer.Proofs.Style.ReadBack

/-!
Components read from what they are written as: the same component, or the depth of its writing is
more than the text may open.
-/
namespace MailComposer

namespace Component
open Json (Decoded Field Medium Reading)

/-- A value as a member of a component holds it. -/
def part (j : Json) : Part :=
  ⟨.ofJson j, fun _ => readList .held (.ofJson j), fun _ => readCells .held (.ofJson j)⟩

def heldMembers (ms : List (String × Json)) : List (Option String × Part) :=
  ms.map fun e => (some e.1, part e.2)

theorem parts_ofMembers (ms : List (String × Json)) :
    parts (Reading.ofMembers ms) = heldMembers ms := by
  induction ms with
  | nil => rfl
  | cons e ms ih => rw [Reading.ofMembers, parts, ih]; rfl

/-- What is done with a member that is held back while the head is read. -/
def holdBack (m : Medium) (p : Part) : Decoded Unit := (p.value.hold m).map fun _ => ()

private theorem holdBack_part (m : Medium) (j : Json) :
    holdBack m (part j) = m.within j.depth () := by
  rw [holdBack, part, Reading.hold_ofJson, Medium.within_map]

private theorem takeMembers_passed {σ : Type} {fields : List (Field Part σ)}
    (skip : Part → Decoded Unit) {m : Medium} {ms : List (String × Json)}
    (hs : ∀ j, skip (part j) = m.within j.depth ())
    (hk : ∀ e ∈ ms, ∀ f ∈ fields, f.name ≠ e.1) (seen : List String) (s : σ) :
    Field.takeMembers fields skip (heldMembers ms) seen s =
      m.within (Json.depthMembers ms) (seen, s) := by
  induction ms with
  | nil => exact (Medium.within_zero m _).symm
  | cons e ms ih =>
    have hm := ih fun d hd => hk d (List.mem_cons_of_mem e hd)
    exact Field.takeMembers_unknown (hk e List.mem_cons_self) (hs e.2) hm

/-- Members that belong to the content, not to what every component has. -/
def Inner (ms : List (String × Json)) : Prop := ∀ e ∈ ms, e.1 ≠ "id" ∧ e.1 ≠ "styles"

private theorem filter_isHeld {ms : List (String × Json)} (h : Inner ms) :
    (heldMembers ms).filter isHeld = heldMembers ms := by
  apply List.filter_eq_self.mpr
  intro e he
  obtain ⟨d, hd, rfl⟩ := List.mem_map.mp he
  have hk := h d hd
  simp [isHeld, hk]

def stylesMember (s : StyleMap) : List (String × Json) :=
  if s.isEmpty then [] else [("styles", s.toJson)]

def idField : Field Part (String × StyleMap) :=
  .required "id" (·.value.text) fun v s => (v, s.2)

def stylesField (m : Medium) : Field Part (String × StyleMap) :=
  .optional "styles" (StyleMap.read m ·.value) fun v s => (s.1, v)

/-- The names of the fields that are set when the head of a component is read. -/
def headSeen (styles : StyleMap) : List String :=
  if styles.isEmpty then ["id"] else ["styles", "id"]

private theorem takeMembers_head (m : Medium) (id : String) (styles : StyleMap)
    {ms : List (String × Json)} (h : Inner ms) :
    Field.takeMembers (headFields m) (holdBack m)
        (heldMembers (("id", .string id) :: (stylesMember styles ++ ms))) [] ("", .empty) =
      m.within (Json.depthMembers (("id", .string id) :: (stylesMember styles ++ ms)))
        (headSeen styles, (id, styles)) := by
  have other : ∀ e ∈ ms, ∀ f ∈ headFields m, f.name ≠ e.1 := by
    intro e he f hf
    simp only [headFields, List.mem_cons, List.not_mem_nil, or_false] at hf
    rcases hf with rfl | rfl
    · exact (h e he).1.symm
    · exact (h e he).2.symm
  have passed := takeMembers_passed (holdBack m) (holdBack_part m) other
  refine Field.takeMembers_known (f := idField) rfl List.not_mem_nil
    (Field.read_required (i := part (.string id)) (Medium.within_zero m id).symm) ?_
  unfold stylesMember headSeen
  by_cases hs : styles.isEmpty = true
  · rw [if_pos hs, if_pos hs, StyleMap.eq_empty_of_isEmpty hs]
    exact passed _ _
  · rw [if_neg hs, if_neg hs, List.singleton_append]
    have hk : "styles" ∉ ["id"] := by decide
    refine Field.takeMembers_known (f := stylesField m) rfl hk
      (Field.read_optional (StyleMap.read_toJson m styles)) ?_
    exact passed ["styles", "id"] (id, styles)

private theorem read_head (m : Medium) (id : String) (styles : StyleMap) {ms : List (String × Json)}
    (h : Inner ms) :
    Field.ofMembers (headFields m) (holdBack m)
        (heldMembers (("id", .string id) :: (stylesMember styles ++ ms))) none ("", .empty) =
      m.within (Json.depthMembers (("id", .string id) :: (stylesMember styles ++ ms)))
        (id, styles) := by
  apply Field.ofMembers_taken _ (takeMembers_head m id styles h)
  intro f hf hn
  simp only [headFields, List.mem_cons, List.not_mem_nil, or_false] at hf
  rcases hf with rfl | rfl
  · unfold headSeen
    split
    · exact List.mem_singleton_self _
    · exact List.mem_cons_of_mem _ (List.mem_singleton_self _)
  · cases hn

def typeField : Field Part Kind := .required "type" (readKind ·.value) fun v _ => v

private theorem take_type {kind : Kind} {content : List (String × Json)}
    (h : ∀ e ∈ content, e.1 ≠ "type") :
    take (heldMembers (("type", .string kind.name) :: content)) [typeField] .text = .ok kind := by
  have hk : typeField.read (part (.string kind.name)) = Medium.held.within 0 fun _ => kind := by
    cases kind <;> rfl
  have other : ∀ e ∈ content, ∀ f ∈ [typeField], f.name ≠ e.1 := by
    intro e he f hf
    rw [List.mem_singleton.mp hf]
    exact (h e he).symm
  have passed := takeMembers_passed (fun _ => .ok ()) (m := .held) (fun _ => rfl) other
    ["type"] kind
  have taken := Field.takeMembers_known (s := Kind.text) (f := typeField) rfl List.not_mem_nil hk
    passed
  apply Field.ofMembers_taken _ taken
  intro f hf _
  rw [List.mem_singleton.mp hf]
  exact List.mem_singleton_self _

/-- What is read when head, kind and content are put together again. -/
private theorem assemble_members (m : Medium) {id : String} {styles : StyleMap} {kind : Kind}
    {content : List (String × Json)} (hc : ∀ e ∈ content, e.1 ∉ ["id", "styles", "type"])
    {c : Component}
    (h : readContent id styles (heldMembers (("type", .string kind.name) :: content)) kind =
      .ok c) :
    assemble m (heldMembers (headMembers id styles kind ++ content)) none =
      m.within (Json.depthMembers (headMembers id styles kind ++ content)) c := by
  have hm : headMembers id styles kind ++ content =
      ("id", .string id) :: (stylesMember styles ++ ("type", .string kind.name) :: content) := by
    rw [headMembers, List.cons_append, List.append_assoc]
    rfl
  have hi : Inner (("type", .string kind.name) :: content) := by
    intro e he
    rcases List.mem_cons.mp he with rfl | he
    · have hn : "type" ≠ "id" ∧ "type" ≠ "styles" := by decide
      exact hn
    · have hn := hc e he
      simp only [List.mem_cons, not_or] at hn
      exact ⟨hn.1, hn.2.1⟩
  have ht : ∀ e ∈ content, e.1 ≠ "type" := by
    intro e he
    have hn := hc e he
    simp only [List.mem_cons, not_or] at hn
    exact hn.2.2.1
  have hf : (heldMembers (("id", .string id) :: (stylesMember styles ++
      ("type", .string kind.name) :: content))).filter isHeld =
        heldMembers (("type", .string kind.name) :: content) := by
    have hf := filter_isHeld hi
    unfold stylesMember
    split <;> exact hf
  have hh := read_head m id styles hi
  unfold holdBack at hh
  rw [hm, assemble, hh]
  refine Medium.within_bind_ok ?_
  have hk : take _ _ _ = .ok kind := take_type ht
  unfold typeField at hk
  simp only [hf, hk]
  exact h

private theorem take_single {σ : Type} {f : Field Part σ} (hf : f.name ≠ "type") {t j : Json}
    {s : σ} {set : σ → σ} {d : Nat} (h : f.read (part j) = Medium.held.within d set) :
    take (heldMembers [("type", t), (f.name, j)]) [f] s = .ok (set s) := by
  have named : ∀ f' ∈ [f], f'.name ≠ "type" := fun f' hm => List.mem_singleton.mp hm ▸ hf
  have first : [f].find? (·.name == f.name) = some f := by simp
  refine Field.ofMembers_taken [f.name] (m := .held) (d := 0) ?_ fun f' hm _ => ?_
  · refine Field.takeMembers_unknown (m := .held) (d := 0) (e := 0) named rfl ?_
    exact Field.takeMembers_known (e := 0) first List.not_mem_nil h rfl
  · rw [List.mem_singleton.mp hm]
    exact List.mem_singleton_self _

private theorem take_pair {σ : Type} {f g : Field Part σ} (hf : f.name ≠ "type")
    (hg : g.name ≠ "type") (hfg : f.name ≠ g.name) {t j k : Json} {s : σ} {set set' : σ → σ}
    {d e : Nat} (h : f.read (part j) = Medium.held.within d set)
    (h' : g.read (part k) = Medium.held.within e set') :
    take (heldMembers [("type", t), (f.name, j), (g.name, k)]) [f, g] s =
      .ok (set' (set s)) := by
  have named : ∀ f' ∈ [f, g], f'.name ≠ "type" := by
    intro f' hm
    rcases List.mem_cons.mp hm with rfl | hm
    · exact hf
    · rwa [List.mem_singleton.mp hm]
  have first : [f, g].find? (·.name == f.name) = some f := by simp
  have second : [f, g].find? (·.name == g.name) = some g := by simp [hfg]
  refine Field.ofMembers_taken [g.name, f.name] (m := .held) (d := 0) ?_ fun f' hm _ => ?_
  · refine Field.takeMembers_unknown (m := .held) (d := 0) (e := 0) named rfl ?_
    refine Field.takeMembers_known (e := 0) first List.not_mem_nil h ?_
    refine Field.takeMembers_known (e := 0) second ?_ h' rfl
    exact fun hm => hfg (List.mem_singleton.mp hm).symm
  · rcases List.mem_cons.mp hm with rfl | hm
    · exact List.mem_cons_of_mem _ (List.mem_singleton_self _)
    · rw [List.mem_singleton.mp hm]
      exact List.mem_cons_self

/-- The content of a component that holds no other. -/
private theorem readContent_leaf (id : String) (styles : StyleMap) (l : Leaf) :
    readContent id styles (heldMembers (("type", .string l.kind.name) :: l.members)) l.kind =
      .ok (.leaf id styles l) := by
  cases l with
  | text _ | image _ _ | button _ _ | divider | spacer _ => rfl
  | heading content level =>
    have taken := take_pair (f := .required "content" (·.value.text) fun v s => (v, s.2))
      (g := .optional "level" (·.value.byte) fun v s => (s.1, v)) (t := .string Kind.heading.name)
      (j := .string content) (s := ("", 2)) (by decide) (by decide) (by decide) (d := 0) rfl
      (Field.read_optional (m := .held) (d := 0) (i := part (.nat level.toNat))
        (Reading.byte_ofJson level))
    exact congrArg (· >>= _) taken
  | list kind items =>
    have hk : ListKind.read .held (.ofJson (.string kind.tag)) = .ok kind := by
      cases kind <;> rfl
    have taken := take_pair
      (f := .optional "listType" (ListKind.read .held ·.value) fun v s => (v, s.2))
      (g := .optional "items" (Reading.texts .held ·.value) fun v s => (s.1, v))
      (t := .string Kind.list.name) (s := (.unordered, [])) (by decide) (by decide) (by decide)
      (Field.read_optional (m := .held) (d := 0) (i := part (.string kind.tag)) hk)
      (Field.read_optional (i := part (.texts items)) (Reading.texts_ofJson .held items))
    exact congrArg (· >>= _) taken

private theorem readContent_column (id : String) (styles : StyleMap) (widths : List String)
    {cells : List (List Component)}
    (h : readCells .held (.ofJson (.array (cellsJson cells))) = .ok cells) :
    readContent id styles (heldMembers (("type", .string Kind.column.name) ::
      [("columnWidths", .texts widths), ("children", .array (cellsJson cells))])) .column =
      .ok (.column id styles widths cells) := by
  have taken := take_pair
    (f := .required "columnWidths" (Reading.texts .held ·.value) fun v s => (v, s.2))
    (g := .optional "children" (·.cells ()) fun v s => (s.1, v)) (t := .string Kind.column.name)
    (s := ([], [])) (by decide) (by decide) (by decide)
    (Field.read_required (i := part (.texts widths)) (Reading.texts_ofJson .held widths))
    (Field.read_optional (m := .held) (d := 0) (i := part (.array (cellsJson cells))) h)
  exact congrArg (· >>= _) taken

private theorem readContent_container (id : String) (styles : StyleMap) {children : List Component}
    (h : readList .held (.ofJson (.array (listJson children))) = .ok children) :
    readContent id styles (heldMembers (("type", .string Kind.container.name) ::
      [("children", .array (listJson children))])) .container =
      .ok (.container id styles children) := by
  have taken := take_single (f := .optional "children" (·.children ()) fun v _ => v)
    (t := .string Kind.container.name) (s := []) (by decide)
    (Field.read_optional (m := .held) (d := 0) (i := part (.array (listJson children))) h)
  exact congrArg (· >>= _) taken

theorem readList_of_readItems {cs : List Component}
    (h : ∀ m, readItems m (Reading.ofItems (listJson cs)) =
      m.within (Json.depthItems (listJson cs)) cs) (m : Medium) :
    readList m (.ofJson (.array (listJson cs))) =
      m.within (Json.array (listJson cs)).depth cs := by
  apply Medium.enter_bind
  intro m
  rw [h m]
  exact Medium.within_bind_ok rfl

mutual

theorem read_toJson : ∀ (c : Component) (m : Medium),
    read m (.ofJson c.toJson) = m.within c.toJson.depth c
  | .leaf id styles l, m => Medium.enter_bind fun m => by
    rw [parts_ofMembers]
    exact assemble_members m (by cases l <;> simp [Leaf.members])
      (readContent_leaf id styles l)
  | .column id styles widths cells, m => Medium.enter_bind fun m => by
    have hc : readCells .held (.ofJson (.array (cellsJson cells))) =
        Medium.held.within (Json.array (cellsJson cells)).depth cells :=
      Medium.enter_bind fun m => by
        rw [readCellItems_cellsJson cells m]
        exact Medium.within_bind_ok rfl
    rw [parts_ofMembers]
    exact assemble_members m (by simp) (readContent_column id styles widths hc)
  | .container id styles children, m => Medium.enter_bind fun m => by
    have hc := readList_of_readItems (readItems_listJson children) .held
    rw [parts_ofMembers]
    exact assemble_members m (by simp) (readContent_container id styles hc)

theorem readItems_listJson : ∀ (cs : List Component) (m : Medium),
    readItems m (Reading.ofItems (listJson cs)) = m.within (Json.depthItems (listJson cs)) cs
  | [], m => (Medium.within_zero m _).symm
  | c :: rest, m => by
    rw [listJson, Reading.ofItems, readItems, read_toJson c m, readItems_listJson rest m]
    exact Medium.within_bind (Medium.within_map m _ _ _)

private theorem readCellItems_cellsJson : ∀ (css : List (List Component)) (m : Medium),
    readCellItems m (Reading.ofItems (cellsJson css)) =
      m.within (Json.depthItems (cellsJson css)) css
  | [], m => (Medium.within_zero m _).symm
  | cs :: rest, m => by
    rw [cellsJson, Reading.ofItems, readCellItems, readCellItems_cellsJson rest m,
      readList_of_readItems (readItems_listJson cs) m]
    exact Medium.within_bind (Medium.within_map m _ _ _)

end

end Component

end MailComposer
