import MailComposer.Style.Property

/-!
Names of style keys in CSS: a capital inside a key becomes a hyphen and the small letter.
-/
namespace MailComposer

def hyphenated (c : Char) : List Char := if c.isUpper then ['-', c.toLower] else [c]

def cssChars : List Char → List Char
  | [] => []
  | c :: cs => c.toLower :: cs.flatMap hyphenated

def cssName (key : String) : String := String.ofList (cssChars key.toList)

def Property.cssName (p : Property) : String := MailComposer.cssName p.key

end MailComposer
