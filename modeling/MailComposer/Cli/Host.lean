import MailComposer.Cli.Path

/-!
What the commands ask of the machine they run on, and a machine that is a plain value: files and
folders under a root, a working folder, and what was printed.
-/
namespace MailComposer.Cli

inductive Entry where
  | file
  | folder
deriving DecidableEq, Repr

class Host (μ : Type → Type) where
  /-- What stands at a path, if anything does. -/
  look : Path → μ (Option Entry)
  /-- The text of a file; none where it cannot be read. -/
  readFile : Path → μ (Option String)
  /-- Whether the text could be written. -/
  writeFile : Path → String → μ Bool
  /-- Whether the folder and all above it are there in the end. -/
  makeFolders : Path → μ Bool
  /-- The names that lead from a path to each file and folder below it, none to the path itself. -/
  contents : Path → μ (List (List String))
  say : String → μ Unit
  warn : String → μ Unit

/-- The names from the root to a file or folder. -/
abbrev Location : Type := List String

structure Machine where
  files : Dictionary Location String
  folders : List Location
  home : Location
  printed : List String

namespace Machine

def isFolder (m : Machine) (l : Location) : Bool := l.isEmpty || m.folders.contains l

/-- The longest name, in bytes. -/
def nameLimit : Nat := 255

/-- The bytes that a path stays below. -/
def pathLimit : Nat := 4096

/-- A path has no end mark inside and is not too long. -/
def isPath (p : Path) : Bool :=
  p.text ≠ "" && !p.text.toList.contains '\x00' && p.text.utf8ByteSize < pathLimit

/-- One step along a path; only a folder can be left. -/
def step (m : Machine) (l : Location) (part : String) : Option Location :=
  if !m.isFolder l then none
  else if part = "" ∨ part = "." then some l
  else if part = ".." then some l.dropLast
  else if part.utf8ByteSize ≤ nameLimit then some (l ++ [part])
  else none

def start (m : Machine) (p : Path) : Location := if p.isAbsolute then [] else m.home

def locate (m : Machine) (p : Path) : Option Location :=
  if isPath p then p.parts.foldlM m.step (m.start p) else none

def entry (m : Machine) (l : Location) : Option Entry :=
  if m.isFolder l then some .folder
  else if (m.files.get? l).isSome then some .file
  else none

def addFolder (m : Machine) (l : Location) : Machine :=
  if m.isFolder l then m else { m with folders := m.folders ++ [l] }

/-- A folder that is there already is as good as a new one. -/
def makeFolder (m : Machine) (p : Path) : Bool × Machine :=
  match m.locate p.closed with
  | none => (false, m)
  | some l => if (m.files.get? l).isSome then (false, m) else (true, m.addFolder l)

/-- Adds one folder after the other, up to the first that cannot be made. -/
def makeEach (m : Machine) : List Path → Bool × Machine
  | [] => (true, m)
  | p :: rest =>
    match m.makeFolder p with
    | (true, m) => m.makeEach rest
    | (false, m) => (false, m)

/-- The folders on the way are made before the last one is. -/
def makeFolders (m : Machine) (p : Path) : Bool × Machine :=
  if p.text = "" then (true, m)
  else if isPath p then m.makeEach (p.above ++ [p])
  else (false, m)

def write (m : Machine) (p : Path) (text : String) : Bool × Machine :=
  match m.locate p with
  | none => (false, m)
  | some l => if m.isFolder l then (false, m) else (true, { m with files := m.files.insert l text })

/-- The rest of a location below another one. -/
def under (l : Location) (other : Location) : Option Location :=
  if l.isPrefixOf other then some (other.drop l.length) else none

/-- A folder whose path has grown too long is named itself, but not what stands in it. -/
def contents (m : Machine) (p : Path) : List (List String) :=
  match m.locate p with
  | none => []
  | some l =>
    if (m.entry l).isSome then
      [] :: (((m.files.entries.map Prod.fst) ++ m.folders).filterMap (under l)).filter fun names =>
        names ≠ [] ∧ isPath (p.below names.dropLast)
    else []

instance : Host (StateM Machine) where
  look p := return ((← get).locate p).bind (← get).entry
  readFile p := return ((← get).locate p).bind (← get).files.get?
  writeFile p text := modifyGet fun m => m.write p text
  makeFolders p := modifyGet fun m => m.makeFolders p
  contents p := return (← get).contents p
  say line := modify fun m => { m with printed := m.printed ++ [line] }
  warn _ := return ()

/-- An empty machine at work in a folder. -/
def blank (home : Location) : Machine where
  files := .empty
  folders := (List.range home.length).map fun i => home.take (i + 1)
  home := home
  printed := []

/-- Puts a file in its place, with the folders above it. -/
def place (m : Machine) (l : Location) (text : String) : Machine :=
  let m := (List.range (l.length - 1)).foldl (fun m i => m.addFolder (l.take (i + 1))) m
  { m with files := m.files.insert l text }

/-- All lines that were printed. -/
def output (m : Machine) : String := String.join (m.printed.map (· ++ "\n"))

end Machine

end MailComposer.Cli
