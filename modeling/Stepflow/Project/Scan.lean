import Stepflow.Digest.Sha256
import Stepflow.Error
import Stepflow.Project.Config
import Stepflow.Project.Disk
import Stepflow.Project.Report
import Stepflow.Source.Extract

/-!
# Projects on a disk

* `loadConfig`, `saveConfig`: the configuration of a project.
* `selected`: the files of a project that are looked at, in the order in which a walk comes to them.
* `extractFile`: the charts of one file.
* `Project.scan`: the charts of all files.
-/

namespace Stepflow.Project

variable {m : Type → Type} [Monad m]

/-! ## Configurations -/

/-- Why a text is no configuration, in words. -/
def faultText : Json.Fault → String
  | .malformed => "the text is not a configuration"
  | .refused message => message

/-- The configuration of a project; the standard one if none was saved. -/
def loadConfig (disk : Disk m) (root : String) : m (Except Error Config) := do
  let path := configPath root
  if ← disk.has path then
    match ← disk.readText path with
    | .error fault => return .error (.config .read path fault.message)
    | .ok text =>
      match Json.decode Config.decoder text with
      | .ok config => return .ok config
      | .error fault => return .error (.config .parse path (faultText fault))
  else return .ok (Config.standard root)

/-- Saves the configuration of a project. It is written to another file first, which then takes its
    place, so that no reader sees a part of it. -/
def saveConfig (disk : Disk m) (root : String) (config : Config) : m (Except Error Unit) := do
  match ← disk.createFolders (folderPath root) with
  | .error fault => return .error (.config .create (folderPath root) fault.message)
  | .ok () =>
    match ← disk.write (stagedPath root) (Json.write true config.json) with
    | .error fault => return .error (.config .write (stagedPath root) fault.message)
    | .ok () =>
      match ← disk.rename (stagedPath root) (configPath root) with
      | .error fault => return .error (.config .replace (configPath root) fault.message)
      | .ok () => return .ok ()

/-! ## Files -/

/-- A name that is never entered: hidden, or the folder of installed packages. -/
def isSkipped (name : String) : Bool :=
  name.toList.head? = some '.' || name == "node_modules"

/-- The written path of a file, with slashes between the names. -/
def relativePath (names : List String) : String :=
  String.ofList (("/".intercalate names).toList.map fun c => if c = '\\' then '/' else c)

/-- The path of a file that is looked at: one that is admitted and not too large. -/
def selectedPath? (config : Config) (entry : Entry) : Option String :=
  match entry.item with
  | .file size =>
    let path := relativePath entry.names
    if config.admits path && size ≤ config.maxFileSize then some path else none
  | _ => none

/-- The files that are looked at, in the order in which a walk comes to them. -/
def selected (config : Config) (item : FileTree) : List String :=
  (item.walk isSkipped []).filterMap (selectedPath? config)

/-- The charts of one file. -/
def extractFile (reader : Source.Reader) (disk : Disk m) (path : String) :
    m (Except Error Source.Extract) := do
  match ← disk.readText path with
  | .error fault => return .error (.file fault.message path)
  | .ok source => return Source.extract reader source

end Project

/-! ## Projects -/

/-- A project with its configuration. -/
structure Project where
  root : String
  config : Project.Config
  deriving DecidableEq, Repr

namespace Project

variable {m : Type → Type} [Monad m]

/-- Saves the standard configuration for a project. -/
def init (disk : Disk m) (root : String) : m (Except Error Project) := do
  let config := Config.standard root
  return (← saveConfig disk root config).map fun _ => { root := root, config := config }

/-- Opens a project. -/
def open_ (disk : Disk m) (root : String) : m (Except Error Project) := do
  return (← loadConfig disk root).map fun config => { root := root, config := config }

/-- What one file adds to a report. -/
def report (reader : Source.Reader) (path : String) :
    Except Fault String → List FileReport × List FileError
  | .error fault => ([], [{ path := path, message := fault.message }])
  | .ok source =>
    match Source.extract reader source with
    | .error e => ([], [{ path := path, message := e.message }])
    | .ok extract =>
      if extract.charts.isEmpty then ([], [])
      else
        ([{ path := path, contentHash := Sha256.ofText source, charts := extract.charts }], [])

/-- Looks at files one after the other. -/
def scanFiles (reader : Source.Reader) (disk : Disk m) (root : String) :
    List String → m (List FileReport × List FileError)
  | [] => return ([], [])
  | path :: paths => do
    let here := report reader path (← disk.readText (joinPath root path))
    let rest ← scanFiles reader disk root paths
    return (here.1 ++ rest.1, here.2 ++ rest.2)

/-- The charts of all files of a project. A file that fails does not stop the scan, and files
    without charts are left out. -/
def scan (reader : Source.Reader) (disk : Disk m) (p : Project) : m Report := do
  let start ← disk.clock
  let paths := ((← disk.tree p.root).map (selected p.config)).getD []
  let (files, errors) ← scanFiles reader disk p.root paths
  let stop ← disk.clock
  return { files := files, errors := errors, scanned := paths.length, duration := stop - start }

end Project

end Stepflow
