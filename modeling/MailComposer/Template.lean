import MailComposer.Canvas
import MailComposer.Component.Json
import MailComposer.Json.Printer

/-!
Templates: a row of components on a canvas, under an id and a name if they have one. This is the
value that is kept in files.
-/
namespace MailComposer

open Json (Decoded Field Medium Reading)

structure Template where
  id : Option String := none
  name : Option String := none
  components : List Component := []
  canvas : Canvas := .default
deriving DecidableEq

namespace Template

def empty : Template := {}

def toJson (t : Template) : Json :=
  .object (Json.memberOf "id" .string t.id ++ Json.memberOf "name" .string t.name ++
    [("components", .array (Component.listJson t.components)), ("canvasSettings", t.canvas.toJson)])

def fields (m : Medium) : List (Field Reading Template) :=
  [.optional "id" (Reading.optional Reading.text) fun v t => { t with id := v },
   .optional "name" (Reading.optional Reading.text) fun v t => { t with name := v },
   .optional "components" (Component.readList m) fun v t => { t with components := v },
   .optional "canvasSettings" (Canvas.read m) fun v t => { t with canvas := v }]

def read (m : Medium) : Reading → Decoded Template :=
  Reading.record m "struct EmailTemplate" fields empty

def ofText? (s : String) : Decoded Template := Json.decodeText read s

def pretty (t : Template) : String := t.toJson.pretty

end Template

end MailComposer
