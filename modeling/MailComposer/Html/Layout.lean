/-!
Documents as lines with a depth, and the two ways to write them down: each line indented and ended,
or one after the other without a blank between.
-/
namespace MailComposer.Html

structure Line where
  depth : Nat
  text : String
deriving DecidableEq, Repr

structure Options where
  pretty : Bool := true
  indent : String := "  "
  title : String := "Email"
deriving DecidableEq, Repr

/-- The body stands one level deeper than the two lines around it. -/
def block (depth : Nat) (opening closing : String) (body : List Line) : List Line :=
  ⟨depth, opening⟩ :: (body ++ [⟨depth, closing⟩])

def Line.render (o : Options) (l : Line) : String :=
  if o.pretty then String.join (List.replicate l.depth o.indent) ++ l.text ++ "\n" else l.text

def render (o : Options) (ls : List Line) : String := String.join (ls.map (·.render o))

end MailComposer.Html
