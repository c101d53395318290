import MailComposer.Html.Escape
import MailComposer.Style.StyleMap
import MailComposer.Text.Blank

/-!
Style attributes: the declarations that say something, in order, with their values trimmed and
escaped.
-/
namespace MailComposer.Html

/-- Blank values, `transparent` and `undefined` say nothing. -/
def isEmitted (value : String) : Bool :=
  let v := Text.trim value
  v ≠ "" && v ≠ "transparent" && v ≠ "undefined"

def declaration (d : String × String) : String := d.1 ++ ": " ++ escape (Text.trim d.2)

def inlineStyle (ds : List (String × String)) : String :=
  "; ".intercalate ((ds.filter fun d => isEmitted d.2).map declaration)

def styleAttribute (inline : String) : String :=
  if inline = "" then "" else " style=\"" ++ inline ++ "\""

/-- The attribute of these declarations, nothing where there are none to write. -/
def styled (ds : List (String × String)) : String := styleAttribute (inlineStyle ds)

end MailComposer.Html
