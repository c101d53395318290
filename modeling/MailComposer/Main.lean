import MailComposer.Cli.Arguments

/-!
The command line: commands at work on the files and folders of the real machine.
-/
namespace MailComposer.Cli

def succeeds {α : Type} (act : IO α) : IO Bool := return (← act.toBaseIO).toBool

/-- All that stands below a folder. A folder that leads back to one it stands in is left out. -/
partial def walk (p : Path) (above names : List String) : IO (List (List String)) := do
  let here ← IO.FS.realPath (p.below names).text
  if above.contains here.toString then return []
  let inner ← match ← here.readDir.toBaseIO with
    | .error _ => pure []
    | .ok entries => entries.toList.mapM fun e => do
      match ← (walk p (here.toString :: above) (names ++ [e.fileName])).toBaseIO with
      | .ok found => return found
      | .error _ => return []
  return names :: inner.flatten

def lookAt (p : Path) : IO Entry := do
  let status ← (← IO.FS.realPath p.text).metadata
  return if status.type == .dir then .folder else .file

instance : Host IO where
  look p := return (← (lookAt p).toBaseIO).toOption
  readFile p := return (← (IO.FS.readFile p.text).toBaseIO).toOption
  writeFile p text := succeeds (IO.FS.writeFile p.text text)
  makeFolders p := succeeds (IO.FS.createDirAll p.text)
  contents p := return ((← (walk p [] []).toBaseIO).toOption).getD []
  say := IO.println
  warn := IO.eprintln

end MailComposer.Cli

open MailComposer.Cli in
/-- Nothing to complain about is 0, a command that failed 1, words that make no command 2. -/
def main (args : List String) : IO UInt32 := do
  match Invocation.parse args with
  | .error .help =>
    IO.println Invocation.help
    return 0
  | .error e =>
    IO.eprintln (e.message ++ "\n\n" ++ Invocation.help)
    return 2
  | .ok inv =>
    match ← (inv.run ⟨(← IO.currentDir).toString⟩ : Command IO Unit) with
    | .ok () => return 0
    | .error e =>
      IO.eprintln ("\nError: " ++ e.message ++ "\n")
      return 1
