import MailComposer.Cli.Config
import MailComposer.Html.Document

/-!
The command that compiles templates: every template below a folder becomes a document at the same
place below another one.
-/
namespace MailComposer.Cli

structure CompileArgs where
  path : Option String := none
  stdout : Bool := false
  outDir : Option String := none
  compact : Bool := false
deriving DecidableEq, Repr

/-- A file to compile: where it is, and the names that lead to it from the folder of templates. -/
structure Source where
  path : Path
  names : List String
deriving DecidableEq, Repr

def Source.relative (s : Source) : String := Path.relative s.names

/-- Where the document of a source goes. -/
def Source.target (s : Source) (out : Path) : Path := out.below (Path.renamed "html" s.names)

/-- A single file stands in its own folder. -/
def sourceOf (src : Path) (entry : Option Entry) (names : List String) : Source :=
  match names, entry with
  | [], some .file => ⟨src, (src.fileName?).toList⟩
  | names, _ => ⟨src.below names, names⟩

/-- The file name that tells whether something is a template. -/
def nameOf (src : Path) (names : List String) : Option String :=
  match names.getLast? with
  | some name => some name
  | none => src.fileName?

def isTemplate (src : Path) (names : List String) : Bool :=
  (nameOf src names).any (Path.hasExtension "json")

variable {μ : Type → Type} [Monad μ] [Host μ]

/-- Templates in the order of their names, folder by folder. -/
def findTemplates (src : Path) : Command μ (List Source) := do
  let entry ← (Host.look src : μ _)
  let found ← (Host.contents src : μ _)
  let names := (found.filter (isTemplate src)).mergeSort fun a b => !decide (b < a)
  return names.map (sourceOf src entry)

/-- Puts a document in its place, or on the screen where it has none. -/
def deliver (html : String) : Option Path → μ (Except String String)
  | none => do
    Host.say html
    return .ok "stdout"
  | some path => do
    if !(← Host.makeFolders path.parent) then return .error "creating the folder failed"
    if !(← Host.writeFile path html) then return .error "writing the document failed"
    return .ok path.text

def compileSource (s : Source) (target : Option Path) (o : Html.Options) :
    μ (Except String String) := do
  match ← Host.readFile s.path with
  | none => return .error ("reading " ++ s.path.text)
  | some text =>
    match Template.ofText? text with
    | .error e => return .error ("Invalid template JSON: " ++ e.message)
    | .ok t => deliver (Html.compileTemplate t o) target

/-- Compiles one after the other and counts successes and failures. -/
def compileSources (out : Option Path) (o : Html.Options) : List Source → μ (Nat × Nat)
  | [] => return (0, 0)
  | s :: rest => do
    match ← compileSource s (out.map s.target) o with
    | .ok place => do
      Host.say ("  ✓ " ++ s.relative ++ " → " ++ place)
      let (done, failed) ← compileSources out o rest
      return (done + 1, failed)
    | .error reason => do
      Host.warn ("  ✗ " ++ s.relative ++ " - " ++ reason)
      let (done, failed) ← compileSources out o rest
      return (done, failed + 1)

def compile (args : CompileArgs) (cwd : Path) : Command μ Unit := do
  let config ← Config.load cwd
  let src := match args.path with
    | some path => cwd.join path
    | none => config.sourcePath cwd
  if (← (Host.look src : μ _)).isNone then throw (.sourceMissing src)
  let out := match args.outDir with
    | some dir => cwd.join dir
    | none => config.outPath cwd
  let options := { config.formatting.options with
    pretty := config.formatting.pretty && !args.compact }
  say "🔨 Compiling email templates..."
  let sources ← findTemplates src
  if sources.isEmpty then say "⚠️  No template files found"
  else
    let out := if args.stdout then none else some out
    let (done, failed) ← (compileSources out options sources : μ _)
    say ""
    if failed = 0 then say ("✅ Compiled " ++ toString done ++ " files successfully")
    else
      say ("⚠️ Compiled " ++ toString done ++ " files, " ++ toString failed ++ " errors")
      throw (.failed failed)

end MailComposer.Cli
