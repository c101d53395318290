import MailComposer.Ids
import MailComposer.Tree.Address

/-!
Edits of a forest. Each gives the new forest; what it cannot do leaves the forest as it is.
-/
namespace MailComposer.Component

mutual

/-- Changes the first component with the id, going through each component before its siblings. -/
def modify? (id : String) (f : Component → Component) : Component → Option Component
  | .leaf i s l => if i = id then some (f (.leaf i s l)) else none
  | .column i s w cells =>
    if i = id then some (f (.column i s w cells))
    else (modifyInCells? id f cells).map (.column i s w)
  | .container i s children =>
    if i = id then some (f (.container i s children))
    else (modifyIn? id f children).map (.container i s)

def modifyIn? (id : String) (f : Component → Component) : List Component → Option (List Component)
  | [] => none
  | c :: rest =>
    match modify? id f c with
    | some c => some (c :: rest)
    | none => (modifyIn? id f rest).map (c :: ·)

def modifyInCells? (id : String) (f : Component → Component) :
    List (List Component) → Option (List (List Component))
  | [] => none
  | cs :: rest =>
    match modifyIn? id f cs with
    | some cs => some (cs :: rest)
    | none => (modifyInCells? id f rest).map (cs :: ·)

end

def modifyIn (tree : List Component) (id : String) (f : Component → Component) : List Component :=
  (modifyIn? id f tree).getD tree

/-- What an edit of a list sees: the component with the id, and the siblings on both sides. -/
abbrev AtSibling (ρ : Type) : Type :=
  List Component → Component → List Component → ρ × List Component

/-- Splits a list at the first component that has the id itself. -/
def here? {ρ : Type} (id : String) (f : AtSibling ρ) (cs : List Component) :
    Option (ρ × List Component) :=
  match cs.dropWhile (·.id ≠ id) with
  | [] => none
  | c :: after => some (f (cs.takeWhile (·.id ≠ id)) c after)

mutual

def below? {ρ : Type} (id : String) (f : AtSibling ρ) : Component → Option (ρ × Component)
  | .leaf .. => none
  | .column i s w cells =>
    (belowCells? id f cells).map fun (r, cells) => (r, .column i s w cells)
  | .container i s children =>
    ((here? id f children).or (belowList? id f children)).map fun (r, cs) => (r, .container i s cs)

def belowList? {ρ : Type} (id : String) (f : AtSibling ρ) :
    List Component → Option (ρ × List Component)
  | [] => none
  | c :: rest =>
    match below? id f c with
    | some (r, c) => some (r, c :: rest)
    | none => (belowList? id f rest).map fun (r, rest) => (r, c :: rest)

def belowCells? {ρ : Type} (id : String) (f : AtSibling ρ) :
    List (List Component) → Option (ρ × List (List Component))
  | [] => none
  | cs :: rest =>
    match (here? id f cs).or (belowList? id f cs) with
    | some (r, cs) => some (r, cs :: rest)
    | none => (belowCells? id f rest).map fun (r, rest) => (r, cs :: rest)

end

/-- Edits the list that holds the id. Each list is searched as a whole before those inside it. -/
def atSibling? {ρ : Type} (id : String) (f : AtSibling ρ) (tree : List Component) :
    Option (ρ × List Component) :=
  (here? id f tree).or (belowList? id f tree)

/-- Adds empty lists up to the number needed. -/
def padCells (needed : Nat) (cells : List (List Component)) : List (List Component) :=
  cells ++ List.replicate (needed - cells.length) []

/-- At the index, or at the end where the list is shorter. -/
def insertAt (index : Option UInt64) (c : Component) (cs : List Component) : List Component :=
  let i := min ((index.map UInt64.toNat).getD cs.length) cs.length
  cs.take i ++ c :: cs.drop i

/-- The parent with a new child; a row of columns takes one only in a column that has a width. -/
def adopt? (c : Component) (t : Target) : Component → Option Component
  | .leaf .. => none
  | .column i s widths cells =>
    let column := (t.column.getD 0).toNat
    if column < widths.length then
      some (.column i s widths ((padCells widths.length cells).modify column (insertAt t.index c)))
    else none
  | .container i s children => some (.container i s (insertAt t.index c children))

def insert? (tree : List Component) (c : Component) (t : Target) : Option (List Component) :=
  match t.parent with
  | none => some (insertAt t.index c tree)
  | some p => do
    let parent ← findIn? p tree
    let parent ← adopt? c t parent
    modifyIn? p (fun _ => parent) tree

section
variable {σ : Type} [IdSource σ]

mutual

/-- New ids for a component and all below it, each parent before its children. -/
def refresh (ids : σ) : Component → Component × σ
  | .leaf _ s l =>
    let (i, ids) := IdSource.next ids
    (.leaf i s l, ids)
  | .column _ s w cells =>
    let (i, ids) := IdSource.next ids
    let (cells, ids) := refreshCells ids cells
    (.column i s w cells, ids)
  | .container _ s children =>
    let (i, ids) := IdSource.next ids
    let (children, ids) := refreshList ids children
    (.container i s children, ids)

def refreshList (ids : σ) : List Component → List Component × σ
  | [] => ([], ids)
  | c :: rest =>
    let (c, ids) := refresh ids c
    let (rest, ids) := refreshList ids rest
    (c :: rest, ids)

def refreshCells (ids : σ) : List (List Component) → List (List Component) × σ
  | [] => ([], ids)
  | cs :: rest =>
    let (cs, ids) := refreshList ids cs
    let (rest, ids) := refreshCells ids rest
    (cs :: rest, ids)

end

end

mutual

def prune (id : String) : Component → Component
  | .leaf i s l => .leaf i s l
  | .column i s w cells => .column i s w (pruneCells id cells)
  | .container i s children => .container i s (pruneList id children)

/-- Without the components that have the id, and all below them. -/
def pruneList (id : String) : List Component → List Component
  | [] => []
  | c :: rest => if c.id = id then pruneList id rest else prune id c :: pruneList id rest

def pruneCells (id : String) : List (List Component) → List (List Component)
  | [] => []
  | cs :: rest => pruneList id cs :: pruneCells id rest

end

end MailComposer.Component

namespace MailComposer.Tree

open Component

def add (tree : List Component) (c : Component) (t : Target) : List Component :=
  (insert? tree c t).getD tree

/-- Removes every component with the id. -/
def delete (tree : List Component) (id : String) : List Component := pruneList id tree

def swapped (d : Direction) (before : List Component) (c : Component) (after : List Component) :
    List Component :=
  match d with
  | .up =>
    match before.getLast? with
    | some p => before.dropLast ++ c :: p :: after
    | none => c :: after
  | .down =>
    match after with
    | n :: after => before ++ n :: c :: after
    | [] => before ++ [c]

/-- Trades places with the neighbour in the same list, if there is one. -/
def move (tree : List Component) (id : String) (d : Direction) : List Component :=
  match atSibling? id (fun before c after => ((), swapped d before c after)) tree with
  | some (_, tree) => tree
  | none => tree

/-- Puts a copy with fresh ids behind the component; gives the id of the copy as well. -/
def duplicate {σ : Type} [IdSource σ] (tree : List Component) (id : String) (ids : σ) :
    Option String × List Component × σ :=
  let copied : AtSibling (Component × σ) := fun before c after =>
    let (copy, ids) := refresh ids c
    ((copy, ids), before ++ c :: copy :: after)
  match atSibling? id copied tree with
  | some ((copy, ids), tree) => (some copy.id, tree, ids)
  | none => (none, tree, ids)

/-- Takes the component out of its list. -/
def detach? (tree : List Component) (id : String) : Option (Component × List Component) :=
  atSibling? id (fun before c after => (c, before ++ after)) tree

def reaches (tree : List Component) (id : String) (t : Target) : Bool :=
  match t.parent with
  | none => true
  | some p => !isWithin tree id p && containsIn p tree

/-- Takes a component to a place outside its own subtree; the index counts without it. -/
def relocate (tree : List Component) (id : String) (t : Target) : List Component :=
  if reaches tree id t then
    match detach? tree id with
    | some (c, rest) => (insert? rest c t).getD tree
    | none => tree
  else tree

end MailComposer.Tree
