import MailComposer.Tree.Edit

/-!
Patches: new values for some fields of a component. Styles merge key by key, a field that the
component does not have is passed over.
-/
namespace MailComposer

open Json (Decoded Field Medium Reading)

structure Patch where
  content : Option String := none
  level : Option UInt8 := none
  src : Option String := none
  alt : Option String := none
  label : Option String := none
  href : Option String := none
  height : Option String := none
  listKind : Option ListKind := none
  items : Option (List String) := none
  widths : Option (List String) := none
  styles : Option StyleMap := none
deriving DecidableEq

namespace Patch

def empty : Patch := {}

def isEmpty (p : Patch) : Bool := p = empty

def ofStyles (s : StyleMap) : Patch := { styles := some s }

def ofStyle (p : Property) (value : String) : Patch := ofStyles (StyleMap.empty.set p value)

def patchLeaf (p : Patch) : Leaf → Leaf
  | .text content => .text (p.content.getD content)
  | .heading content level =>
    .heading (p.content.getD content) ((p.level.map Leaf.clampLevel).getD level)
  | .image src alt => .image (p.src.getD src) (p.alt.getD alt)
  | .button label href => .button (p.label.getD label) (p.href.getD href)
  | .divider => .divider
  | .spacer height => .spacer (p.height.getD height)
  | .list kind items => .list (p.listKind.getD kind) (p.items.getD items)

def patchStyles (p : Patch) (s : StyleMap) : StyleMap :=
  match p.styles with
  | some new => s.merge new
  | none => s

/-- New widths come with a list of children for each. -/
def apply (p : Patch) : Component → Component
  | .leaf i s l => .leaf i (p.patchStyles s) (p.patchLeaf l)
  | .column i s widths cells =>
    match p.widths with
    | some widths => .column i (p.patchStyles s) widths (Component.padCells widths.length cells)
    | none => .column i (p.patchStyles s) widths cells
  | .container i s children => .container i (p.patchStyles s) children

def toJson (p : Patch) : Json :=
  .object (Json.memberOf "content" .string p.content ++
    Json.memberOf "level" (fun l => .nat l.toNat) p.level ++
    Json.memberOf "src" .string p.src ++
    Json.memberOf "alt" .string p.alt ++
    Json.memberOf "text" .string p.label ++
    Json.memberOf "href" .string p.href ++
    Json.memberOf "height" .string p.height ++
    Json.memberOf "listType" (fun k => .string k.tag) p.listKind ++
    Json.memberOf "items" .texts p.items ++
    Json.memberOf "columnWidths" .texts p.widths ++
    Json.memberOf "styles" StyleMap.toJson p.styles)

def fields (m : Medium) : List (Field Reading Patch) :=
  [.optional "content" (Reading.optional Reading.text) fun v p => { p with content := v },
   .optional "level" (Reading.optional Reading.byte) fun v p => { p with level := v },
   .optional "src" (Reading.optional Reading.text) fun v p => { p with src := v },
   .optional "alt" (Reading.optional Reading.text) fun v p => { p with alt := v },
   .optional "text" (Reading.optional Reading.text) fun v p => { p with label := v },
   .optional "href" (Reading.optional Reading.text) fun v p => { p with href := v },
   .optional "height" (Reading.optional Reading.text) fun v p => { p with height := v },
   .optional "listType" (Reading.optional (ListKind.read m)) fun v p => { p with listKind := v },
   .optional "items" (Reading.optional (Reading.texts m)) fun v p => { p with items := v },
   .optional "columnWidths" (Reading.optional (Reading.texts m)) fun v p => { p with widths := v },
   .optional "styles" (Reading.optional (StyleMap.read m)) fun v p => { p with styles := v }]

def read (m : Medium) : Reading → Decoded Patch :=
  Reading.record m "struct ComponentPatch" fields empty

end Patch

/-- Patches the first component with the id. -/
def Tree.update (tree : List Component) (id : String) (p : Patch) : List Component :=
  Component.modifyIn tree id p.apply

end MailComposer
