import Stepflow.Project.FileTree

/-!
# Disks

What a project needs of a file system, whatever runs it.

* `Fault`: why an operation on a path failed.
* `Disk`: the operations.
* `Disk.readText`: the text in a file.
-/

namespace Stepflow.Project

/-- Why an operation on a path failed. -/
inductive Fault where
  | notFound
  | notFolder
  | isFolder
  | alreadyThere
  | notText
  | other (message : String)
  deriving DecidableEq, Repr

/-- The fault in words. -/
def Fault.message : Fault → String
  | notFound => "No such file or directory (os error 2)"
  | notFolder => "Not a directory (os error 20)"
  | isFolder => "Is a directory (os error 21)"
  | alreadyThere => "File exists (os error 17)"
  | notText => "stream did not contain valid UTF-8"
  | other message => message

/-- The operations on paths. `tree` gives what a path leads to, with all that is below it, if it
    leads to something. `rename` replaces its target in one step. -/
structure Disk (m : Type → Type) where
  has : String → m Bool
  read : String → m (Except Fault ByteArray)
  createFolders : String → m (Except Fault Unit)
  write : String → String → m (Except Fault Unit)
  rename : String → String → m (Except Fault Unit)
  tree : String → m (Option FileTree)
  workFolder : m String
  clock : m Nat

/-- The text of some bytes. -/
def textOf (bytes : ByteArray) : Except Fault String :=
  match String.fromUTF8? bytes with
  | some s => .ok s
  | none => .error .notText

/-- The text in a file. -/
def Disk.readText {m : Type → Type} [Monad m] (disk : Disk m) (path : String) :
    m (Except Fault String) := do
  return (← disk.read path).bind textOf

end Stepflow.Project
