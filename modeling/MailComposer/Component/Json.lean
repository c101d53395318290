import MailComposer.Component.Basic
import MailComposer.Style.Json

/-!
Components in JSON: an object with the id, the styles if any are set, the name of the kind under
`type`, and the content. What belongs to the content is held back until the kind is known.
-/
namespace MailComposer

open Json (Decoded Field Medium Reading)

def ListKind.options : List (String × ListKind) := [("ul", .unordered), ("ol", .ordered)]

def ListKind.read (m : Medium) : Reading → Decoded ListKind := Reading.oneOf m options

def Leaf.members : Leaf → List (String × Json)
  | .text content => [("content", .string content)]
  | .heading content level => [("content", .string content), ("level", .nat level.toNat)]
  | .image src alt => [("src", .string src), ("alt", .string alt)]
  | .button label href => [("text", .string label), ("href", .string href)]
  | .divider => []
  | .spacer height => [("height", .string height)]
  | .list kind items => [("listType", .string kind.tag), ("items", .texts items)]

namespace Component

def headMembers (id : String) (styles : StyleMap) (kind : Kind) : List (String × Json) :=
  ("id", .string id) ::
    ((if styles.isEmpty then [] else [("styles", styles.toJson)]) ++
      [("type", .string kind.name)])

mutual

def toJson : Component → Json
  | .leaf id styles l => .object (headMembers id styles l.kind ++ l.members)
  | .column id styles widths cells =>
    .object (headMembers id styles .column ++
      [("columnWidths", .texts widths), ("children", .array (cellsJson cells))])
  | .container id styles children =>
    .object (headMembers id styles .container ++ [("children", .array (listJson children))])

def listJson : List Component → List Json
  | [] => []
  | c :: rest => toJson c :: listJson rest

def cellsJson : List (List Component) → List Json
  | [] => []
  | cs :: rest => .array (listJson cs) :: cellsJson rest

end

/-- The value of a member, and what it is as the children of a container or of a row of columns. -/
structure Part where
  value : Reading
  children : Unit → Decoded (List Component)
  cells : Unit → Decoded (List (List Component))

/-- The kind is held back as well, so that its position may stand for its name. -/
def readKind : Reading → Decoded Kind
  | .string s =>
    match Kind.ofName? s with
    | some k => .ok k
    | none => .error (.unknownVariant s (Kind.all.map Kind.name))
  | .number (.whole n) =>
    match Kind.all[n]? with
    | some k => .ok k
    | none => .error (.invalidValue (.whole n) "variant index 0 <= i < 9")
  | r => .error (Json.mismatch "variant identifier" r)

/-- Takes the content of a component out of the members that were held back. -/
def take (held : List (Option String × Part)) (fields : List (Field Part σ)) (start : σ) :
    Decoded σ :=
  Field.ofMembers fields (fun _ => .ok ()) held none start

def readContent (id : String) (styles : StyleMap) (held : List (Option String × Part)) :
    Kind → Decoded Component
  | .text => do
    let content ← take held [.required "content" (·.value.text) fun v _ => v] ""
    return .leaf id styles (.text content)
  | .heading => do
    let (content, level) ← take held
      [.required "content" (·.value.text) fun v s => (v, s.2),
       .optional "level" (·.value.byte) fun v s => (s.1, v)] ("", 2)
    return .leaf id styles (.heading content level)
  | .image => do
    let (src, alt) ← take held
      [.required "src" (·.value.text) fun v s => (v, s.2),
       .optional "alt" (·.value.text) fun v s => (s.1, v)] ("", "")
    return .leaf id styles (.image src alt)
  | .button => do
    let (label, href) ← take held
      [.required "text" (·.value.text) fun v s => (v, s.2),
       .optional "href" (·.value.text) fun v s => (s.1, v)] ("", "#")
    return .leaf id styles (.button label href)
  | .divider => return .leaf id styles .divider
  | .spacer => do
    let height ← take held [.required "height" (·.value.text) fun v _ => v] ""
    return .leaf id styles (.spacer height)
  | .list => do
    let (kind, items) ← take held
      [.optional "listType" (ListKind.read .held ·.value) fun v s => (v, s.2),
       .optional "items" (Reading.texts .held ·.value) fun v s => (s.1, v)] (.unordered, [])
    return .leaf id styles (.list kind items)
  | .column => do
    let (widths, cells) ← take held
      [.required "columnWidths" (Reading.texts .held ·.value) fun v s => (v, s.2),
       .optional "children" (·.cells ()) fun v s => (s.1, v)] ([], [])
    return .column id styles widths cells
  | .container => do
    let children ← take held [.optional "children" (·.children ()) fun v _ => v] []
    return .container id styles children

def headFields (m : Medium) : List (Field Part (String × StyleMap)) :=
  [.required "id" (·.value.text) fun v s => (v, s.2),
   .optional "styles" (StyleMap.read m ·.value) fun v s => (s.1, v)]

def isHeld (member : Option String × Part) : Bool :=
  member.1 != some "id" && member.1 != some "styles"

/-- Id and styles first, then the kind, then its content. -/
def assemble (m : Medium) (members : List (Option String × Part)) (stop : Option Json.Break) :
    Decoded Component := do
  let hold (p : Part) : Decoded Unit := (p.value.hold m).map fun _ => ()
  let (id, styles) ← Field.ofMembers (headFields m) hold members stop ("", .empty)
  let held := members.filter isHeld
  let kind ← take held [.required "type" (readKind ·.value) fun v _ => v] Kind.text
  readContent id styles held kind

mutual

def read (m : Medium) : Reading → Decoded Component
  | .object members stop => do
    let m ← m.enter
    assemble m (parts members) stop
  | r => .error (Json.mismatch "struct EmailComponent" r)

def parts : List (Option String × Reading) → List (Option String × Part)
  | [] => []
  | (k, r) :: rest => (k, ⟨r, fun _ => readList .held r, fun _ => readCells .held r⟩) :: parts rest

def readList (m : Medium) : Reading → Decoded (List Component)
  | .array items stop => do
    let m ← m.enter
    let cs ← readItems m items
    Json.ending stop
    return cs
  | r => .error (Json.mismatch "a sequence" r)

def readItems (m : Medium) : List Reading → Decoded (List Component)
  | [] => .ok []
  | r :: rest => do
    let c ← read m r
    return c :: (← readItems m rest)

def readCells (m : Medium) : Reading → Decoded (List (List Component))
  | .array items stop => do
    let m ← m.enter
    let css ← readCellItems m items
    Json.ending stop
    return css
  | r => .error (Json.mismatch "a sequence" r)

def readCellItems (m : Medium) : List Reading → Decoded (List (List Component))
  | [] => .ok []
  | r :: rest => do
    let cs ← readList m r
    return cs :: (← readCellItems m rest)

end

def ofText? (s : String) : Decoded Component := Json.decodeText read s

def ofJson? (j : Json) : Decoded Component := Json.decodeJson read j

end Component

end MailComposer
