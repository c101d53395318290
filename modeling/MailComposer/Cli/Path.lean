import MailComposer.Dictionary

/-!
Paths of files: texts whose parts are set off by slashes, and the names in them.
-/
namespace MailComposer.Cli

structure Path where
  text : String
deriving DecidableEq, Repr

namespace Path

def isAbsolute (p : Path) : Bool := p.text.toList.head? == some '/'

/-- What stands between the slashes of a text. -/
def splitSlashes : List Char → List (List Char)
  | [] => [[]]
  | c :: cs =>
    if c = '/' then [] :: splitSlashes cs
    else
      match splitSlashes cs with
      | [] => [[c]]
      | part :: parts => (c :: part) :: parts

def parts (p : Path) : List String := (splitSlashes p.text.toList).map String.ofList

/-- A path below another one; an absolute one stands for itself. -/
def join (base : Path) (rel : String) : Path :=
  if (Path.mk rel).isAbsolute then ⟨rel⟩
  else if base.text.toList.getLast?.all (· == '/') then ⟨base.text ++ rel⟩
  else ⟨base.text ++ "/" ++ rel⟩

def relative (names : List String) : String := "/".intercalate names

/-- The path of names below a folder, the folder itself where there is none. -/
def below (base : Path) (names : List String) : Path :=
  if names.isEmpty then base else base.join (relative names)

/-- Whether a part leads somewhere: a name, or the way up. -/
def isStep (part : String) : Bool := part ≠ "" && part ≠ "."

def steps (p : Path) : List String := p.parts.filter isStep

/-- The parts up to some number of steps, as they are written. -/
def partsUpTo : Nat → List String → List String
  | 0, _ => []
  | _, [] => []
  | n + 1, part :: rest => part :: partsUpTo (if isStep part then n else n + 1) rest

/-- The path of the first steps. -/
def upTo (p : Path) (n : Nat) : Path :=
  match partsUpTo n p.parts with
  | [] => ⟨if p.isAbsolute then "/" else ""⟩
  | parts => ⟨relative parts⟩

/-- The path without its last step. -/
def parent (p : Path) : Path := p.upTo (p.steps.length - 1)

/-- The paths on the way, the shortest first. -/
def above (p : Path) : List Path := (List.range (p.steps.length - 1)).map fun n => p.upTo (n + 1)

/-- The path without the slashes at its end. -/
def closed (p : Path) : Path :=
  match p.text.toList.reverse.dropWhile (· = '/') with
  | [] => p
  | cs => ⟨String.ofList cs.reverse⟩

/-- The last step, if it is a name. -/
def fileName? (p : Path) : Option String :=
  p.steps.getLast?.filter (· ≠ "..")

/-- A name in two at its last dot; a dot at the front is part of the name. -/
def splitExtension? (name : List Char) : Option (List Char × List Char) :=
  match name.reverse.dropWhile (· ≠ '.') with
  | _ :: stem =>
    if stem.isEmpty then none
    else some (stem.reverse, (name.reverse.takeWhile (· ≠ '.')).reverse)
  | [] => none

def hasExtension (extension : String) (name : String) : Bool :=
  match splitExtension? name.toList with
  | some (_, e) => e = extension.toList
  | none => false

/-- A dot as stem would make the way up, which has no extension. -/
def withExtension (extension : String) (name : String) : String :=
  match splitExtension? name.toList with
  | some (['.'], _) => ".."
  | some (stem, _) => String.ofList (stem ++ '.' :: extension.toList)
  | none => String.ofList (name.toList ++ '.' :: extension.toList)

/-- Names with another extension at the last of them. -/
def renamed (extension : String) : List String → List String
  | [] => []
  | [name] => [withExtension extension name]
  | name :: names => name :: renamed extension names

end Path

end MailComposer.Cli
