import MailComposer.Cli.Host
import MailComposer.Html.Layout
import MailComposer.Json.Printer
import MailComposer.Json.Record
import MailComposer.Text.Debug

/-!
The settings of a project, kept in a file of its folder, and what can end a command.
-/
namespace MailComposer.Cli

open Json (Decoded Field Medium Reading)

structure Formatting where
  pretty : Bool := true
  indent : String := "  "
deriving DecidableEq, Repr

structure Config where
  srcDir : String := "templates"
  outDir : String := "dist"
  formatting : Formatting := {}
deriving DecidableEq, Repr

namespace Formatting

def options (f : Formatting) : Html.Options := { pretty := f.pretty, indent := f.indent }

def toJson (f : Formatting) : Json :=
  .object [("pretty", .bool f.pretty), ("indent", .string f.indent)]

def fields (_ : Medium) : List (Field Reading Formatting) :=
  [.optional "pretty" Reading.flag fun v f => { f with pretty := v },
   .optional "indent" Reading.text fun v f => { f with indent := v }]

def read (m : Medium) : Reading → Decoded Formatting :=
  Reading.record m "struct CompilerOptions" fields {}

end Formatting

namespace Config

def fileName : String := "mailcraft.config.json"

def toJson (c : Config) : Json :=
  .object [("srcDir", .string c.srcDir), ("outDir", .string c.outDir),
    ("compilerOptions", c.formatting.toJson)]

def fields (m : Medium) : List (Field Reading Config) :=
  [.optional "srcDir" Reading.text fun v c => { c with srcDir := v },
   .optional "outDir" Reading.text fun v c => { c with outDir := v },
   .optional "compilerOptions" (Formatting.read m) fun v c => { c with formatting := v }]

def read (m : Medium) : Reading → Decoded Config := Reading.record m "struct Config" fields {}

def ofText? (s : String) : Decoded Config := Json.decodeText read s

/-- The folder of templates, seen from the working folder. -/
def sourcePath (c : Config) (cwd : Path) : Path := cwd.join c.srcDir

/-- The folder of compiled documents, seen from the working folder. -/
def outPath (c : Config) (cwd : Path) : Path := cwd.join c.outDir

end Config

inductive CommandError where
  | configRead (path : Path)
  | configParse (path : Path) (cause : Json.DecodeError)
  | io
  | sourceMissing (path : Path)
  | failed (count : Nat)
deriving DecidableEq, Repr

namespace CommandError

def message : CommandError → String
  | .configRead path => "Failed to read " ++ path.text
  | .configParse path cause => "Invalid " ++ path.text ++ ": " ++ cause.message
  | .io => "A file or folder could not be written"
  | .sourceMissing path => "Source path does not exist: " ++ Text.debugQuoted path.text
  | .failed count => toString count ++ " template(s) failed to compile"

end CommandError

abbrev Command (μ : Type → Type) : Type → Type := ExceptT CommandError μ

/-- Carries a command out on a machine that is a value; what it did before it failed stays done. -/
def Machine.perform {α : Type} (c : Command (StateM Machine) α) (m : Machine) :
    Except CommandError α × Machine :=
  c.run.run m

variable {μ : Type → Type} [Monad μ] [Host μ]

/-- The settings in a folder, or those that hold where it has none. -/
def Config.load (cwd : Path) : Command μ Config := do
  let path := cwd.join fileName
  if (← (Host.look path : μ _)).isNone then return {}
  match ← (Host.readFile path : μ _) with
  | none => throw (.configRead path)
  | some text =>
    match Config.ofText? text with
    | .ok c => return c
    | .error e => throw (.configParse path e)

def say (line : String) : Command μ Unit := (Host.say line : μ Unit)

/-- Fails where the machine could not do what it was asked. -/
def require (done : μ Bool) : Command μ Unit := do
  if !(← (done : μ Bool)) then throw .io

end MailComposer.Cli
