import MailComposer.Component.Kind

/-!
Components, the nodes of a template: leaves with content of their own, containers with children,
and columns, which have one list of children for each column.
-/
namespace MailComposer

inductive ListKind where
  | unordered
  | ordered
deriving DecidableEq, Repr

namespace ListKind

def tag : ListKind → String
  | .unordered => "ul"
  | .ordered => "ol"

/-- The marker of a list whose styles name none. -/
def marker : ListKind → String
  | .unordered => "disc"
  | .ordered => "decimal"

end ListKind

/-- The content of a component that holds no other. -/
inductive Leaf where
  | text (content : String)
  | heading (content : String) (level : UInt8)
  | image (src alt : String)
  | button (label href : String)
  | divider
  | spacer (height : String)
  | list (kind : ListKind) (items : List String)
deriving DecidableEq

def Leaf.kind : Leaf → Kind
  | .text _ => .text
  | .heading .. => .heading
  | .image .. => .image
  | .button .. => .button
  | .divider => .divider
  | .spacer _ => .spacer
  | .list .. => .list

/-- Heading levels outside the range from 1 to 6 count as its nearer end. -/
def Leaf.clampLevel (level : UInt8) : UInt8 := max 1 (min level 6)

/-- A list in `cells` belongs to the column at its position; missing lists are empty. -/
inductive Component where
  | leaf (id : String) (styles : StyleMap) (leaf : Leaf)
  | column (id : String) (styles : StyleMap) (widths : List String) (cells : List (List Component))
  | container (id : String) (styles : StyleMap) (children : List Component)

instance : Inhabited Component := ⟨.leaf "" .empty .divider⟩

namespace Component

mutual

def same : Component → Component → Bool
  | .leaf i s l, .leaf i' s' l' => i == i' && s == s' && l == l'
  | .column i s w cs, .column i' s' w' cs' => i == i' && s == s' && w == w' && sameCells cs cs'
  | .container i s cs, .container i' s' cs' => i == i' && s == s' && sameList cs cs'
  | _, _ => false

def sameList : List Component → List Component → Bool
  | [], [] => true
  | c :: cs, c' :: cs' => same c c' && sameList cs cs'
  | _, _ => false

def sameCells : List (List Component) → List (List Component) → Bool
  | [], [] => true
  | cs :: r, cs' :: r' => sameList cs cs' && sameCells r r'
  | _, _ => false

end

mutual

private theorem same_iff : ∀ a b : Component, same a b = true ↔ a = b
  | .leaf .., b => by cases b <;> simp [same, and_assoc]
  | .column _ _ _ cs, b => by cases b <;> simp [same, and_assoc, sameCells_iff cs]
  | .container _ _ cs, b => by cases b <;> simp [same, and_assoc, sameList_iff cs]

private theorem sameList_iff : ∀ as bs : List Component, sameList as bs = true ↔ as = bs
  | [], bs => by cases bs <;> simp [sameList]
  | a :: as, bs => by cases bs <;> simp [sameList, same_iff a, sameList_iff as]

private theorem sameCells_iff : ∀ as bs : List (List Component), sameCells as bs = true ↔ as = bs
  | [], bs => by cases bs <;> simp [sameCells]
  | a :: as, bs => by cases bs <;> simp [sameCells, sameList_iff a, sameCells_iff as]

end

instance : DecidableEq Component := fun a b => decidable_of_iff _ (same_iff a b)

def id : Component → String
  | .leaf i .. | .column i .. | .container i .. => i

def styles : Component → StyleMap
  | .leaf _ s _ | .column _ s .. | .container _ s _ => s

def kind : Component → Kind
  | .leaf _ _ l => l.kind
  | .column .. => .column
  | .container .. => .container

def withId (i : String) : Component → Component
  | .leaf _ s l => .leaf i s l
  | .column _ s w cs => .column i s w cs
  | .container _ s cs => .container i s cs

def withStyles (s : StyleMap) : Component → Component
  | .leaf i _ l => .leaf i s l
  | .column i _ w cs => .column i s w cs
  | .container i _ cs => .container i s cs

def acceptsChildren (c : Component) : Bool := c.kind.acceptsChildren

mutual

/-- The number of nodes in a subtree, its root among them. -/
def size : Component → Nat
  | .leaf .. => 1
  | .column _ _ _ cells => 1 + sizeCells cells
  | .container _ _ children => 1 + sizeList children

def sizeList : List Component → Nat
  | [] => 0
  | c :: rest => size c + sizeList rest

def sizeCells : List (List Component) → Nat
  | [] => 0
  | cs :: rest => sizeList cs + sizeCells rest

end

end Component

end MailComposer
