import MailComposer.Proofs.Component.ReadBack
import MailComposer.Proofs.Json.ReadBack
import MailComposer.Template

/-!
Templates written to a text and read from it again. Only the depth of what is written can stand in
the way, since writing has no bound on it and reading has.
-/
namespace MailComposer

open Json (Field Medium Reading)

namespace Component

private theorem plain_headMembers (id : String) (styles : StyleMap) (kind : Kind) :
    Json.PlainMembers (headMembers id styles kind) := by
  refine ⟨trivial, Json.plainMembers_append ?_ ⟨trivial, trivial⟩⟩
  split
  · trivial
  · exact ⟨styles.plain_toJson, trivial⟩

private theorem plain_leaf (l : Leaf) : Json.PlainMembers l.members := by
  cases l with
  | text _ | spacer _ => exact ⟨trivial, trivial⟩
  | image _ _ | button _ _ => exact ⟨trivial, trivial, trivial⟩
  | divider => trivial
  | heading _ level => exact ⟨trivial, Nat.lt_trans level.toNat_lt (by decide), trivial⟩
  | list _ items => exact ⟨trivial, Json.plain_texts items, trivial⟩

mutual

theorem plain_toJson : ∀ c : Component, c.toJson.Plain
  | .leaf id styles l =>
    Json.plainMembers_append (plain_headMembers id styles l.kind) (plain_leaf l)
  | .column id styles widths cells =>
    Json.plainMembers_append (plain_headMembers id styles .column)
      ⟨Json.plain_texts widths, plain_cellsJson cells, trivial⟩
  | .container id styles children =>
    Json.plainMembers_append (plain_headMembers id styles .container)
      ⟨plain_listJson children, trivial⟩

private theorem plain_listJson : ∀ cs : List Component, Json.PlainItems (listJson cs)
  | [] => trivial
  | c :: rest => ⟨plain_toJson c, plain_listJson rest⟩

private theorem plain_cellsJson : ∀ css : List (List Component), Json.PlainItems (cellsJson css)
  | [] => trivial
  | cs :: rest => ⟨plain_listJson cs, plain_cellsJson rest⟩

end

end Component

theorem Canvas.plain_toJson (c : Canvas) : c.toJson.Plain := by
  simp only [toJson, Json.Plain, Json.PlainMembers, and_self]

namespace Template

theorem plain_toJson (t : Template) : t.toJson.Plain := by
  have name (key : String) (v : Option String) :
      Json.PlainMembers (Json.memberOf key .string v) :=
    Json.plainMembers_memberOf key v fun _ => trivial
  refine Json.plainMembers_append (Json.plainMembers_append (name _ t.id) (name _ t.name)) ?_
  exact ⟨Component.plain_listJson t.components, t.canvas.plain_toJson, trivial⟩

end Template

theorem Canvas.read_toJson (m : Medium) (c : Canvas) :
    Canvas.read m (.ofJson c.toJson) = m.within c.toJson.depth c :=
  Medium.enter_bind fun m => (Medium.within_zero m c).symm

namespace Template

/-- The members that are always written. -/
def mainMembers (t : Template) : List (String × Json) :=
  [("components", .array (Component.listJson t.components)), ("canvasSettings", t.canvas.toJson)]

private theorem takeMembers_main (m : Medium) (t s : Template) {seen : List String}
    (h : seen ⊆ ["name", "id"]) :
    Field.takeMembers (fields m) Reading.skip (Reading.ofMembers t.mainMembers) seen s =
      m.within (Json.depthMembers t.mainMembers) ("canvasSettings" :: "components" :: seen,
        { s with components := t.components, canvas := t.canvas }) := by
  have hc : "components" ∉ seen := fun hm => absurd (h hm) (by decide)
  have hv : "canvasSettings" ∉ "components" :: seen := by
    intro hm
    rcases List.mem_cons.mp hm with e | hm
    · exact absurd e (by decide)
    · exact absurd (h hm) (by decide)
  have components := Component.readList_of_readItems (Component.readItems_listJson t.components) m
  refine Field.takeMembers_known
    (f := .optional "components" (Component.readList m) fun v t => { t with components := v })
    rfl hc (Field.read_optional components) ?_
  refine Field.takeMembers_known
    (f := .optional "canvasSettings" (Canvas.read m) fun v t => { t with canvas := v })
    rfl hv (Field.read_optional (t.canvas.read_toJson m)) ?_
  exact (Medium.within_zero m _).symm

private theorem takeMembers_name (m : Medium) (t : Template) (id : Option String)
    {seen : List String} (h : seen ⊆ ["id"]) :
    ∃ seen', Field.takeMembers (fields m) Reading.skip
      (Reading.ofMembers (Json.memberOf "name" .string t.name ++ t.mainMembers)) seen { id } =
        m.within (Json.depthMembers (Json.memberOf "name" .string t.name ++ t.mainMembers))
          (seen', { t with id }) := by
  obtain ⟨-, name, components, canvas⟩ := t
  cases name with
  | none => exact ⟨_, takeMembers_main m _ _ (List.Subset.trans h (List.subset_cons_self _ _))⟩
  | some name =>
    have hn : "name" ∉ seen := fun hm => absurd (h hm) (by decide)
    have main := takeMembers_main m ⟨id, some name, components, canvas⟩ { id, name := some name }
      (List.cons_subset_cons "name" h)
    have read : (Reading.ofJson (.string name)).optional Reading.text = m.within 0 (some name) :=
      (Medium.within_zero m _).symm
    refine ⟨"canvasSettings" :: "components" :: "name" :: seen,
      Field.takeMembers_known (f := .optional "name" (Reading.optional Reading.text)
        fun v t => { t with name := v }) rfl hn (Field.read_optional read) ?_⟩
    exact main

private theorem takeMembers_all (m : Medium) (t : Template) :
    ∃ seen, Field.takeMembers (fields m) Reading.skip
      (Reading.ofMembers (Json.memberOf "id" .string t.id ++
        (Json.memberOf "name" .string t.name ++ t.mainMembers))) [] empty =
        m.within (Json.depthMembers (Json.memberOf "id" .string t.id ++
          (Json.memberOf "name" .string t.name ++ t.mainMembers))) (seen, t) := by
  obtain ⟨id, name, components, canvas⟩ := t
  cases id with
  | none => exact takeMembers_name m _ none (List.nil_subset _)
  | some id =>
    obtain ⟨seen, hs⟩ := takeMembers_name m ⟨some id, name, components, canvas⟩ (some id)
      (List.Subset.refl ["id"])
    have read : (Reading.ofJson (.string id)).optional Reading.text = m.within 0 (some id) :=
      (Medium.within_zero m _).symm
    refine ⟨seen, Field.takeMembers_known (f := .optional "id" (Reading.optional Reading.text)
      fun v t => { t with id := v }) rfl List.not_mem_nil (Field.read_optional read) ?_⟩
    exact hs

theorem read_toJson (m : Medium) (t : Template) :
    read m (.ofJson t.toJson) = m.within t.toJson.depth t := by
  rw [toJson, List.append_assoc]
  apply Medium.enter_bind
  intro m
  obtain ⟨seen, ht⟩ := takeMembers_all m t
  apply Field.ofMembers_taken seen ht
  intro f hf hn
  simp only [fields, List.mem_cons, List.not_mem_nil, or_false] at hf
  rcases hf with rfl | rfl | rfl | rfl <;> cases hn

/-- A template comes back from its text unchanged, and does so exactly when the text is not nested
deeper than a text may be. -/
theorem ofText?_pretty (t t' : Template) :
    ofText? t.pretty = .ok t' ↔ t.toJson.depth ≤ 127 ∧ t' = t := by
  have hd : ofText? t.pretty = (Medium.text Json.nestingLimit).within t.toJson.depth t := by
    rw [ofText?, pretty, Json.decodeText, Json.Document.ofText_pretty t.plain_toJson,
      Json.Document.decode, read_toJson]
    exact Medium.within_bind_ok rfl
  rw [hd, Medium.within_eq_ok]
  rfl

end Template

end MailComposer
