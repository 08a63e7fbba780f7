import Stepflow.Project.Disk
import Stepflow.Text.Pieces

/-!
# Files in memory

A file system as a value: every path leads to a file or a folder.

* `Files`: the paths that are there, and the folder in which relative paths start.
* `Files.locate`: the place that a written path leads to.
* `Files.tree?`: what a path leads to, as a tree.
* `Files.disk`: the operations of a disk, as changes of the value.
-/

namespace Stepflow.Project

/-- What a path leads to. -/
inductive Item where
  | file (content : ByteArray)
  | folder

/-- The names on the way from the top folder. -/
abbrev Place := List String

/-- The places that are there, with what they hold, and the folder in which relative paths start.
    The top folder is always there. -/
structure Files where
  items : List (Place × Item)
  work : Place

namespace Files

/-- What is at a place. -/
def item? (fs : Files) : Place → Option Item
  | [] => some .folder
  | place => fs.items.lookup place

/-- Puts something at a place. -/
def put (fs : Files) (place : Place) (item : Item) : Files :=
  { fs with items := (place, item) :: fs.items.filter (·.1 != place) }

/-- Takes away a place and all that is below it. -/
def remove (fs : Files) (place : Place) : Files :=
  { fs with items := fs.items.filter fun entry => !place.isPrefixOf entry.1 }

/-- A place that must be a folder. -/
def enter (fs : Files) (place : Place) : Except Fault Place :=
  match fs.item? place with
  | some .folder => .ok place
  | some (.file _) => .error .notFolder
  | none => .error .notFound

/-- One name further. -/
def step (fs : Files) (place : Place) (name : String) : Except Fault Place := do
  let folder ← fs.enter place
  if name.isEmpty || name == "." then .ok folder
  else if name == ".." then .ok folder.dropLast
  else .ok (folder ++ [name])

/-- The names of a written path. -/
def names (path : String) : List String :=
  (Text.splitOn '/' path.toList).map String.ofList

/-- The folder in which a written path starts. -/
def origin (fs : Files) (path : String) : Place :=
  if path.toList.head? = some '/' then [] else fs.work

/-- The place that a written path leads to; all places on the way must be folders. -/
def locate (fs : Files) (path : String) : Except Fault Place :=
  if path.isEmpty then .error .notFound
  else (names path).foldlM fs.step (fs.origin path)

/-- The content of a file. -/
def read (fs : Files) (path : String) : Except Fault ByteArray := do
  let place ← fs.locate path
  match fs.item? place with
  | some (.file content) => .ok content
  | some .folder => .error .isFolder
  | none => .error .notFound

/-- Writes a file. -/
def write (fs : Files) (path : String) (content : ByteArray) : Except Fault Files := do
  let place ← fs.locate path
  match fs.item? place with
  | some .folder => .error .isFolder
  | _ => .ok (fs.put place (.file content))

/-- One name further; a folder that is not there is made. -/
def stepInto (fs : Files) (place : Place) (name : String) : Except Fault (Files × Place) := do
  let next ← fs.step place name
  match fs.item? next with
  | some .folder => .ok (fs, next)
  | some (.file _) => .error .alreadyThere
  | none => .ok (fs.put next .folder, next)

/-- Makes the folders along some names. Where that fails, those made before stay. -/
def makeFolders (fs : Files) (place : Place) : List String → Except Fault Unit × Files
  | [] => (.ok (), fs)
  | name :: names =>
    match fs.stepInto place name with
    | .ok (fs', next) => fs'.makeFolders next names
    | .error fault => (.error fault, fs)

/-- Makes the folders of a written path. A file on a way that is there so far is met before
    anything is made; it is no folder to go through, while one at the end is in the way. -/
def makePath (fs : Files) (path : String) : Except Fault Unit × Files :=
  match fs.locate path with
  | .error .notFolder => (.error .notFolder, fs)
  | _ => fs.makeFolders (fs.origin path) (names path)

/-- Makes a folder and those around it. -/
def createFolders (fs : Files) (path : String) : Except Fault Files :=
  match fs.makePath path with
  | (.ok (), fs') => .ok fs'
  | (.error fault, _) => .error fault

/-- Moves a file. -/
def rename (fs : Files) (source target : String) : Except Fault Files := do
  let content ← fs.read source
  let place ← fs.locate source
  (fs.remove place).write target content

/-- The names in a folder, in the order of the items. -/
def namesIn (fs : Files) (place : Place) : List String :=
  fs.items.filterMap fun entry => if entry.1.dropLast = place then entry.1.getLast? else none

/-- The most names on the way to any place. -/
def depth (fs : Files) : Nat :=
  fs.items.foldr (fun entry most => max entry.1.length most) 0

/-- What is at a place, with all that is below it and not further away than so many names. -/
def treeWithin (fs : Files) : Nat → Place → FileTree
  | 0, place =>
    match fs.item? place with
    | some (.file content) => .file content.size
    | _ => .folder []
  | far + 1, place =>
    match fs.item? place with
    | some (.file content) => .file content.size
    | _ => .folder ((fs.namesIn place).map fun name => (name, fs.treeWithin far (place ++ [name])))

/-- What a path leads to, with all that is below it. -/
def tree? (fs : Files) (path : String) : Option FileTree :=
  match fs.locate path with
  | .ok place => (fs.item? place).map fun _ => fs.treeWithin fs.depth place
  | .error _ => none

/-- A written path to a place. -/
def pathOf (place : Place) : String :=
  "/" ++ "/".intercalate place

/-- Keeps a change if it succeeds. -/
def change (f : Files → Except Fault Files) : StateM Files (Except Fault Unit) :=
  modifyGet fun fs =>
    match f fs with
    | .ok fs' => (.ok (), fs')
    | .error fault => (.error fault, fs)

/-- The operations of a disk. No time passes. -/
def disk : Disk (StateM Files) where
  has path := do
    let fs ← get
    return match fs.locate path with
      | .ok place => (fs.item? place).isSome
      | .error _ => false
  read path := do return (← get).read path
  createFolders path := modifyGet fun fs => fs.makePath path
  write path text := change (·.write path text.toUTF8)
  rename source target := change (·.rename source target)
  tree path := do return (← get).tree? path
  workFolder := do return pathOf (← get).work
  clock := return 0

end Files

end Stepflow.Project
