import MailComposer.Json.Record

/-!
The canvas: layout and type of the document as a whole. It is replaced as one value.
-/
namespace MailComposer

open Json (Decoded Field Medium Reading)

structure Canvas where
  backgroundColor : String := "#f4f4f4"
  contentBackgroundColor : String := "#ffffff"
  contentWidth : String := "600px"
  maxWidth : String := "600px"
  padding : String := "20px"
  fontFamily : String := "Arial, Helvetica, sans-serif"
  fontSize : String := "16px"
  lineHeight : String := "1.5"
  textColor : String := "#333333"
deriving DecidableEq, Repr

namespace Canvas

def default : Canvas := {}

def toJson (c : Canvas) : Json :=
  .object [
    ("backgroundColor", .string c.backgroundColor),
    ("contentBackgroundColor", .string c.contentBackgroundColor),
    ("contentWidth", .string c.contentWidth),
    ("maxWidth", .string c.maxWidth),
    ("padding", .string c.padding),
    ("fontFamily", .string c.fontFamily),
    ("fontSize", .string c.fontSize),
    ("lineHeight", .string c.lineHeight),
    ("textColor", .string c.textColor)]

def fields (_ : Medium) : List (Field Reading Canvas) :=
  [.optional "backgroundColor" Reading.text fun v c => { c with backgroundColor := v },
   .optional "contentBackgroundColor" Reading.text fun v c =>
     { c with contentBackgroundColor := v },
   .optional "contentWidth" Reading.text fun v c => { c with contentWidth := v },
   .optional "maxWidth" Reading.text fun v c => { c with maxWidth := v },
   .optional "padding" Reading.text fun v c => { c with padding := v },
   .optional "fontFamily" Reading.text fun v c => { c with fontFamily := v },
   .optional "fontSize" Reading.text fun v c => { c with fontSize := v },
   .optional "lineHeight" Reading.text fun v c => { c with lineHeight := v },
   .optional "textColor" Reading.text fun v c => { c with textColor := v }]

def read (m : Medium) : Reading → Decoded Canvas :=
  Reading.record m "struct CanvasSettings" fields default

end Canvas

end MailComposer
