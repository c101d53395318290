import MailComposer.Component.Basic

/-!
Looking into a forest of components. A search by id goes through each component before its next
sibling, and finds the first that has the id; the search for the list that holds an id goes through
each list before its components.
-/
namespace MailComposer.Component

mutual

def find? (id : String) : Component → Option Component
  | .leaf i s l => if i = id then some (.leaf i s l) else none
  | .column i s w cells => if i = id then some (.column i s w cells) else findInCells? id cells
  | .container i s children =>
    if i = id then some (.container i s children) else findIn? id children

def findIn? (id : String) : List Component → Option Component
  | [] => none
  | c :: rest => (find? id c).or (findIn? id rest)

def findInCells? (id : String) : List (List Component) → Option Component
  | [] => none
  | cs :: rest => (findIn? id cs).or (findInCells? id rest)

end

def containsIn (id : String) (tree : List Component) : Bool := (findIn? id tree).isSome

/-- The children in one list: those of a container, or those in one column, the first by default. -/
def childList? (column : Option UInt64) : Component → Option (List Component)
  | .leaf .. => none
  | .column _ _ _ cells => some (cells[(column.getD 0).toNat]?.getD [])
  | .container _ _ children => some children

/-- The list under a parent, the forest itself where none is named. -/
def level? (tree : List Component) (parent : Option String) (column : Option UInt64) :
    Option (List Component) :=
  match parent with
  | none => some tree
  | some p => (findIn? p tree).bind (childList? column)

/-- Whether `id` stands in the subtree under `ancestor`, at its root too. -/
def isWithin (tree : List Component) (ancestor id : String) : Bool :=
  match findIn? ancestor tree with
  | none => false
  | some c => (c.find? id).isSome

/-- The list itself, if the id is in it and not only below it. -/
def ownList? (id : String) (cs : List Component) : Option (List Component) :=
  if cs.any (·.id = id) then some cs else none

mutual

def listBelow? (id : String) : Component → Option (List Component)
  | .leaf .. => none
  | .column _ _ _ cells => listBelowCells? id cells
  | .container _ _ children => (ownList? id children).or (listBelowList? id children)

def listBelowList? (id : String) : List Component → Option (List Component)
  | [] => none
  | c :: rest => (listBelow? id c).or (listBelowList? id rest)

def listBelowCells? (id : String) : List (List Component) → Option (List Component)
  | [] => none
  | cs :: rest => ((ownList? id cs).or (listBelowList? id cs)).or (listBelowCells? id rest)

end

/-- The first list with the id in it. Each list is searched as a whole before those inside it. -/
def listHolding? (id : String) (tree : List Component) : Option (List Component) :=
  (ownList? id tree).or (listBelowList? id tree)

/-- The id of the sibling right behind the first component with the id in the list that holds it. -/
def siblingAfter? (tree : List Component) (id : String) : Option String := do
  let siblings ← listHolding? id tree
  let next ← (siblings.dropWhile (·.id ≠ id))[1]?
  return next.id

end MailComposer.Component
