import MailComposer.Component.Basic

/-!
The styles that count for a component: its own where they are not empty, else those of its kind.
-/
namespace MailComposer.Component

def effective (c : Component) (p : Property) : String :=
  match c.styles.nonEmpty? p with
  | some value => value
  | none => (c.kind.defaultStyles.get? p).getD ""

def resolved (c : Component) : StyleMap := c.kind.defaultStyles.merge c.styles.filled

end MailComposer.Component
