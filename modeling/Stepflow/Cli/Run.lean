import Stepflow.Cli.Args
import Stepflow.Project.Scan
import Stepflow.TypeScript.Source

/-!
# Commands on a disk

* `Outcome`: what a command prints and its exit code.
* `run`: runs the command that arguments ask for.
-/

namespace Stepflow.Cli

open Project (Disk)

/-- What a command prints to its two streams, and its exit code. -/
structure Outcome where
  code : Nat
  out : String
  err : String
  deriving DecidableEq, Repr

/-- How the command line is used. -/
def usageText : String :=
  "Flowchart extraction for annotated TypeScript step machines\n\n" ++
  "Usage: stepflow <COMMAND>\n\n" ++
  "Commands:\n" ++
  "  extract <FILE> [-p] [-f json|yaml] [-s]   the methods of a file\n" ++
  "  scan [PATH] [-p] [-f json|yaml] [-o FILE] the methods of a project\n" ++
  "  init [PATH]                               writes a configuration\n" ++
  "  help                                      this text\n"

/-- A result on the first stream. -/
def printed (text : String) : Outcome :=
  { code := 0, out := text ++ "\n", err := "" }

/-- A failure. -/
def failed (e : Error) : Outcome :=
  { code := 1, out := "", err := "Error: " ++ e.message ++ "\n" }

/-- What `extract` delivers. -/
def extractJson (withSource : Bool) (x : Source.Extract) : Json.Value :=
  let charts := Json.Value.array (x.charts.map Flow.Chart.json)
  if withSource then .object [("methods", charts), ("source", .string x.text)] else charts

/-- What `scan` says if the result goes to a file. -/
def scanSummary (r : Project.Report) : String :=
  "Scanned " ++ toString r.scanned ++ " files: " ++ toString r.files.length ++
    " with codeflow methods, " ++ toString r.errors.length ++ " errors in " ++
    toString r.duration ++ "ms\n"

variable {m : Type → Type} [Monad m]

/-- The path of a project; without one it is the folder in which the command runs. -/
def projectPath (disk : Disk m) : Option String → m String
  | some path => return path
  | none => disk.workFolder

/-- Runs a command. -/
def Command.run (disk : Disk m) : Command → m Outcome
  | .extract file pretty format withSource => do
    match ← Project.extractFile TypeScript.reader disk file with
    | .error e => return failed e
    | .ok x => return printed (render format pretty (extractJson withSource x))
  | .scan path pretty format output => do
    match ← Project.open_ disk (← projectPath disk path) with
    | .error e => return failed e
    | .ok project =>
      let report ← project.scan TypeScript.reader disk
      let text := render format pretty report.json
      match output with
      | none => return printed text
      | some file =>
        match ← disk.write file text with
        | .error fault => return failed (.io fault.message)
        | .ok () => return { code := 0, out := "", err := scanSummary report }
  | .init path => do
    let root ← projectPath disk path
    match ← Project.init disk root with
    | .error e => return failed e
    | .ok _ => return printed ("Initialized codeflow config at " ++ root)

/-- Runs what arguments ask for. -/
def run (disk : Disk m) (args : List String) : m Outcome :=
  match parse args with
  | .run command => command.run disk
  | .help => return { code := 0, out := usageText, err := "" }
  | .usage => return { code := 2, out := "", err := usageText }

end Stepflow.Cli
