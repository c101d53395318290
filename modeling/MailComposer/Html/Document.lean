import MailComposer.Html.Fragment
import MailComposer.Template

/-!
The whole document: a head with the title, and a body in which one table centres another that
holds the components.
-/
namespace MailComposer.Html

def head (title : String) : List Line :=
  block 1 "<head>" "</head>" [
    ⟨2, "<meta charset=\"UTF-8\">"⟩,
    ⟨2, "<meta name=\"viewport\" content=\"width=device-width, initial-scale=1.0\">"⟩,
    ⟨2, "<meta http-equiv=\"X-UA-Compatible\" content=\"IE=edge\">"⟩,
    ⟨2, "<title>" ++ escape title ++ "</title>"⟩]

def outerTable (c : Canvas) : String :=
  "<table role=\"presentation\" width=\"100%\" cellpadding=\"0\" cellspacing=\"0\" border=\"0\"" ++
    styled [("background-color", c.backgroundColor)] ++ ">"

def innerTable (c : Canvas) : String :=
  "<table role=\"presentation\"" ++ widthAttribute .size c.contentWidth ++
    " cellpadding=\"0\" cellspacing=\"0\" border=\"0\"" ++
    styled [("width", "100%"), ("max-width", c.maxWidth),
      ("background-color", c.contentBackgroundColor), ("font-family", c.fontFamily),
      ("font-size", c.fontSize), ("line-height", c.lineHeight), ("color", c.textColor)] ++ ">"

def bodyOpening (c : Canvas) : String :=
  "<body" ++
    styled [("margin", "0"), ("padding", "0"), ("background-color", c.backgroundColor)] ++ ">"

def cellAround (c : Canvas) : String :=
  "<td align=\"center\"" ++ styled [("padding", c.padding)] ++ ">"

/-- The depth of the components in a document. -/
def contentDepth : Nat := 8

def body (c : Canvas) (content : List Line) : List Line :=
  block 1 (bodyOpening c) "</body>" <|
    block 2 (outerTable c) "</table>" <|
      block 3 "<tr>" "</tr>" <|
        block 4 (cellAround c) "</td>" <|
          block 5 (innerTable c) "</table>" <|
            block 6 "<tr>" "</tr>" <|
              block 7 "<td>" "</td>" content

def document (components : List Component) (c : Canvas) (title : String) : List Line :=
  ⟨0, "<!DOCTYPE html>"⟩ ::
    block 0 "<html>" "</html>" (head title ++ body c (fragmentList contentDepth components))

def compile (components : List Component) (c : Canvas) (o : Options) : String :=
  render o (document components c o.title)

/-- A name that is not blank is the title. -/
def titled (name : Option String) (o : Options) : Options :=
  match name with
  | some n => if Text.isAllBlank n then o else { o with title := n }
  | none => o

def compileTemplate (t : Template) (o : Options) : String :=
  compile t.components t.canvas (titled t.name o)

end MailComposer.Html
