import MailComposer.Cli.Compile
import MailComposer.Cli.Init

/-!
The words of a command line: a command, and options with a long or a short name, whose values stand
beside them or in the next word.
-/
namespace MailComposer.Cli

inductive UsageError where
  | help
  | helpForMissing
  | unknownCommand
  | unknownArgument
  | missingValue
  | surplusValue
  | repeated
deriving DecidableEq, Repr

def UsageError.message : UsageError → String
  | .help => "help was asked for"
  | .helpForMissing => "a command is missing"
  | .unknownCommand => "there is no such command"
  | .unknownArgument => "there is no such argument"
  | .missingValue => "an option has no value"
  | .surplusValue => "a flag takes no value"
  | .repeated => "an option is given twice"

inductive Effect where
  | help
  | flag
  | value
deriving DecidableEq, Repr

structure Switch where
  long : String
  short : Option Char
  effect : Effect
deriving DecidableEq, Repr

/-- What a command takes: its switches, and how many words beside them. -/
structure Usage where
  switches : List Switch
  words : Nat

def helpSwitch : Switch := ⟨"help", some 'h', .help⟩

/-- The words taken so far. A switch is `open` until it is known that its value is complete. -/
structure Parsed where
  given : List (String × String) := []
  words : List String := []
  pending : Option (Switch × Option String) := none
  onlyWords : Bool := false

namespace Parsed

def record (p : Parsed) (s : Switch) (value : String) : Except UsageError Parsed :=
  if (p.given.lookup s.long).isSome then .error .repeated
  else .ok { p with given := p.given ++ [(s.long, value)] }

/-- Closes the switch that is open. -/
def close (p : Parsed) : Except UsageError Parsed :=
  match p.pending with
  | none => .ok p
  | some (_, none) => .error .missingValue
  | some (s, some value) => { p with pending := none }.record s value

def enter (p : Parsed) (s : Switch) (value : Option String) : Except UsageError Parsed := do
  let p ← p.close
  match s.effect, value with
  | .help, _ => .error .help
  | .flag, _ => p.record s ""
  | .value, some v => p.record s v
  | .value, none => return { p with pending := some (s, none) }

def word (u : Usage) (p : Parsed) (w : String) : Except UsageError Parsed :=
  if p.words.length < u.words then p.close.map fun p => { p with words := p.words ++ [w] }
  else .error .unknownArgument

/-- A long name, with a value after an equals sign. -/
def long (u : Usage) (p : Parsed) (cs : List Char) : Except UsageError Parsed :=
  let name := String.ofList (cs.takeWhile (· ≠ '='))
  let value := match cs.dropWhile (· ≠ '=') with
    | [] => none
    | _ :: v => some (String.ofList v)
  match u.switches.find? (·.long == name) with
  | none => .error .unknownArgument
  | some s =>
    if s.effect ≠ .value ∧ value.isSome then .error .surplusValue else p.enter s value

/-- Short names in a row; what follows the first that takes a value is its value. -/
def shorts (u : Usage) (p : Parsed) : List Char → Except UsageError Parsed
  | [] => .ok p
  | c :: cs =>
    match u.switches.find? (·.short == some c) with
    | none => .error .unknownArgument
    | some s =>
      match s.effect, cs with
      | .value, [] => p.enter s none
      | .value, '=' :: v => p.enter s (some (String.ofList v))
      | .value, v => p.enter s (some (String.ofList v))
      | _, cs => do
        let p ← p.enter s none
        p.shorts u cs

def next (u : Usage) (p : Parsed) (w : String) : Except UsageError Parsed :=
  if p.onlyWords then p.word u w
  else
    match w.toList with
    | ['-', '-'] => .ok { p with onlyWords := true }
    | '-' :: '-' :: cs => p.long u cs
    | '-' :: c :: cs => p.shorts u (c :: cs)
    | _ =>
      match p.pending with
      | some (s, none) => .ok { p with pending := some (s, some w) }
      | _ => p.word u w

def ofWords (u : Usage) (ws : List String) : Except UsageError Parsed := do
  let p ← ws.foldlM (next u) {}
  p.close

def value? (p : Parsed) (long : String) : Option String := p.given.lookup long

def has (p : Parsed) (long : String) : Bool := (p.value? long).isSome

end Parsed

inductive Invocation where
  | init (args : InitArgs)
  | compile (args : CompileArgs)
deriving DecidableEq, Repr

namespace Invocation

def commands : List String := ["init", "compile", "help"]

def initUsage : Usage where
  switches := [⟨"src-dir", some 's', .value⟩, ⟨"out-dir", some 'o', .value⟩,
    ⟨"force", some 'f', .flag⟩, helpSwitch]
  words := 0

def compileUsage : Usage where
  switches := [⟨"stdout", none, .flag⟩, ⟨"out-dir", some 'o', .value⟩, ⟨"compact", none, .flag⟩,
    helpSwitch]
  words := 1

def parseInit (ws : List String) : Except UsageError Invocation := do
  let p ← Parsed.ofWords initUsage ws
  let defaults : InitArgs := {}
  return .init {
    srcDir := (p.value? "src-dir").getD defaults.srcDir
    outDir := (p.value? "out-dir").getD defaults.outDir
    force := p.has "force" }

def parseCompile (ws : List String) : Except UsageError Invocation := do
  let p ← Parsed.ofWords compileUsage ws
  return .compile {
    path := p.words.head?
    stdout := p.has "stdout"
    outDir := p.value? "out-dir"
    compact := p.has "compact" }

def help : String := "\n".intercalate [
  "Usage: mailcraft <COMMAND>",
  "",
  "  init     [-s, --src-dir <SRC_DIR>] [-o, --out-dir <OUT_DIR>] [-f, --force]",
  "  compile  [PATH] [--stdout] [-o, --out-dir <OUT_DIR>] [--compact]",
  "  help     [COMMAND]"]

/-- `help` names one command at most. -/
def parseHelp : List String → UsageError
  | [] => .help
  | [w] => if commands.contains w then .help else .unknownCommand
  | _ => .unknownCommand

def afterDashes : List String → UsageError
  | [] => .helpForMissing
  | w :: _ => if commands.contains w then .unknownArgument else .unknownCommand

def parse : List String → Except UsageError Invocation
  | [] => .error .helpForMissing
  | "init" :: ws => parseInit ws
  | "compile" :: ws => parseCompile ws
  | "help" :: ws => .error (parseHelp ws)
  | "--" :: ws => .error (afterDashes ws)
  | w :: _ =>
    match w.toList with
    | '-' :: _ :: _ =>
      match Parsed.next ⟨[helpSwitch], 0⟩ {} w with
      | .error e => .error e
      | .ok _ => .error .helpForMissing
    | _ => .error .unknownCommand

variable {μ : Type → Type} [Monad μ] [Host μ]

/-- Runs a command in a folder. -/
def run (cwd : Path) : Invocation → Command μ Unit
  | .init args => Cli.init args cwd
  | .compile args => Cli.compile args cwd

end Invocation

end MailComposer.Cli
