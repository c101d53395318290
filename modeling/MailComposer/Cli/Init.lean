import MailComposer.Cli.Config
import MailComposer.Component.Preset
import MailComposer.Template

/-!
The command that sets up a project: a folder of templates with one to start from, and the settings.
-/
namespace MailComposer.Cli

structure InitArgs where
  srcDir : String := "templates"
  outDir : String := "dist"
  force : Bool := false
deriving DecidableEq, Repr

/-- A heading, some text, an image beside a button, and a divider. -/
def welcome : Template where
  name := some "Welcome"
  components := [
    .leaf "welcome-1" Kind.heading.defaultStyles (.heading "Welcome aboard" 2),
    .leaf "welcome-2" Kind.text.defaultStyles
      (.text "Thanks for signing up. Here is what to do next."),
    .column "welcome-3" Kind.column.defaultStyles [Preset.share 2, Preset.share 2]
      [[(Preset.basic .image).build "welcome-4"],
       [.leaf "welcome-5" Kind.button.defaultStyles (.button "Get started" "https://example.com")]],
    (Preset.basic .divider).build "welcome-6"]

variable {μ : Type → Type} [Monad μ] [Host μ]

def ensureSource (src : Path) (name : String) : Command μ Unit := do
  if (← (Host.look src : μ _)).isNone then
    require (Host.makeFolders src : μ Bool)
    say ("  ✓ Created " ++ name ++ "/")

def ensureWelcome (src : Path) : Command μ Unit := do
  let path := src.join "welcome.json"
  if (← (Host.look path : μ _)).isNone then
    require (Host.writeFile path welcome.pretty : μ Bool)
    say "  ✓ Created welcome.json"

/-- Leaves settings that are there alone, unless it is forced. -/
def init (args : InitArgs) (cwd : Path) : Command μ Unit := do
  let configPath := cwd.join Config.fileName
  if (← (Host.look configPath : μ _)).isSome && !args.force then
    say ("⚠️ " ++ Config.fileName ++ " already exists")
    say "Use --force to overwrite"
  else
    say "📝 Initializing Mailcraft project..."
    let src := cwd.join args.srcDir
    ensureSource src args.srcDir
    ensureWelcome src
    let config : Config := { srcDir := args.srcDir, outDir := args.outDir }
    require (Host.writeFile configPath config.toJson.pretty : μ Bool)
    say ("  ✓ Created " ++ Config.fileName)
    say ""
    say "✅ Project initialized!"
    say ""
    say "Next steps:"
    say ("  1. Edit " ++ args.srcDir ++ "/welcome.json")
    say "  2. Run: mailcraft compile"
    say ("  3. Check output in " ++ args.outDir ++ "/")

end MailComposer.Cli
