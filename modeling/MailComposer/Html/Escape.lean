/-!
Text in HTML: each character that could be taken for markup becomes an entity.
-/
namespace MailComposer.Html

def entity (c : Char) : List Char :=
  match c with
  | '&' => "&amp;".toList
  | '<' => "&lt;".toList
  | '>' => "&gt;".toList
  | '"' => "&quot;".toList
  | '\'' => "&#39;".toList
  | c => [c]

def escapeChars (cs : List Char) : List Char := cs.flatMap entity

def escape (s : String) : String := String.ofList (escapeChars s.toList)

end MailComposer.Html
