import Stepflow.Cli.Run

/-!
# The command line program

* `machine`: the disk of the machine, on which the commands run.
* `main`: runs the command that the arguments ask for.

Nothing is decided here; all rules are in `Stepflow.Cli.run`.
-/

namespace Stepflow

open Project (Disk Fault FileTree joinPath)

/-- The fault behind an error of the machine. -/
def faultOf : IO.Error → Fault
  | .noFileOrDirectory .. => .notFound
  | .inappropriateType _ 20 _ => .notFolder
  | .inappropriateType .. => .isFolder
  | .alreadyExists .. => .alreadyThere
  | e => .other (toString e)

/-- Turns an error of the machine into a fault. -/
def attempt {α : Type} (action : IO α) : IO (Except Fault α) := do
  try
    return .ok (← action)
  catch e => return .error (faultOf e)

/-- What a path leads to, with all that is below it. Links are not followed, unless the path is one
    that leads to a folder. What cannot be listed counts as empty, and so does what no walk
    enters. -/
partial def treeAt (top : Bool) (path : String) : IO (Option FileTree) := do
  let here := (← IO.currentDir) / path
  try
    let info ← here.symlinkMetadata
    let isFolder ← if top then here.isDir else pure (info.type == .dir)
    if isFolder then
      let mut entries := #[]
      for entry in ← (try here.readDir catch _ => pure #[]) do
        let below ←
          if Project.isSkipped entry.fileName then pure (some .other)
          else treeAt false (joinPath path entry.fileName)
        if let some item := below then entries := entries.push (entry.fileName, item)
      return some (.folder entries.toList)
    else if info.type == .file then return some (.file info.byteSize.toNat)
    else return some .other
  catch _ => return none

/-- The disk of the machine. -/
def machine : Disk IO where
  has path := do ((← IO.currentDir) / path).pathExists
  read path := attempt (IO.FS.readBinFile path)
  createFolders path := attempt (IO.FS.createDirAll path)
  write path text := attempt (IO.FS.writeFile path text)
  rename source target := attempt (IO.FS.rename source target)
  tree path := treeAt true path
  workFolder := do return (← IO.currentDir).toString
  clock := IO.monoMsNow

end Stepflow

/-- Runs the command that the arguments ask for. -/
def main (args : List String) : IO UInt32 := do
  let outcome ← Stepflow.Cli.run Stepflow.machine args
  (← IO.getStdout).putStr outcome.out
  (← IO.getStderr).putStr outcome.err
  return outcome.code.toUInt32
