import Stepflow.Json.Decode
import Stepflow.Json.Writer
import Stepflow.Project.Glob

/-!
# Configurations of a project

* `Config`: which files of a project are looked at.
* `Config.admits`: whether a path is looked at.
* `Config.json`, `Config.decoder`: a configuration as JSON.
* `folderPath`, `configPath`: where the configuration of a project is kept.
-/

namespace Stepflow.Project

open Json (Value Decoder)

/-- Which files of a project are looked at: those that fit a pattern of `includes` and none of
    `excludes`, and are not larger than `maxFileSize` bytes. -/
structure Config where
  version : Nat
  rootDir : String
  includes : List String
  excludes : List String
  maxFileSize : Nat
  deriving DecidableEq, Repr

namespace Config

/-- The configuration of a project for which none was saved. -/
def standard (rootDir : String) : Config where
  version := 1
  rootDir := rootDir
  includes := ["**/*.ts", "**/*.tsx", "**/*.mts", "**/*.cts"]
  excludes := ["node_modules/**", "**/node_modules/**", "dist/**", "build/**", "target/**",
    ".git/**", ".codeflow/**", "**/*.d.ts", "**/*.min.*"]
  maxFileSize := 1048576

/-- The path is to be looked at. -/
def admits (c : Config) (path : String) : Bool :=
  !(c.excludes.any (Glob.isMatch · path)) && c.includes.any (Glob.isMatch · path)

/-- A configuration as JSON. -/
def json (c : Config) : Value :=
  .object [("version", .int c.version), ("root_dir", .string c.rootDir),
    ("include", .array (c.includes.map .string)), ("exclude", .array (c.excludes.map .string)),
    ("max_file_size", .int c.maxFileSize)]

/-- What is known of a configuration while it is read. -/
structure Draft where
  version : Option Nat := none
  rootDir : Option String := none
  includes : Option (List String) := none
  excludes : Option (List String) := none
  maxFileSize : Option Nat := none

/-- The keys of a configuration. -/
def slots : List (Decoder.Slot Draft) :=
  [Decoder.slot "version" (Decoder.word 32) fun x c => { c with version := some x },
    Decoder.slot "root_dir" Decoder.text fun x c => { c with rootDir := some x },
    Decoder.slot "include" (Decoder.list Decoder.text) fun x c => { c with includes := some x },
    Decoder.slot "exclude" (Decoder.list Decoder.text) fun x c => { c with excludes := some x },
    Decoder.slot "max_file_size" (Decoder.word 64) fun x c => { c with maxFileSize := some x }]

/-- Reads a configuration; all keys must be given. -/
def decoder : Decoder Config := fun v => do
  let c ← Decoder.record slots {} v
  return { version := ← Decoder.required c.version, rootDir := ← Decoder.required c.rootDir,
           includes := ← Decoder.required c.includes, excludes := ← Decoder.required c.excludes,
           maxFileSize := ← Decoder.required c.maxFileSize }

end Config

/-- A path below another one. Nothing is put between them if the first one is empty or ends in a
    separator. -/
def joinPath (base rest : String) : String :=
  if base.isEmpty then rest
  else if base.toList.getLast? = some '/' then base ++ rest
  else base ++ "/" ++ rest

/-- The folder of a project in which its configuration is kept. -/
def folderPath (root : String) : String :=
  joinPath root ".codeflow"

/-- The file in which the configuration of a project is kept. -/
def configPath (root : String) : String :=
  joinPath (folderPath root) "config.json"

/-- The file into which a configuration is written before it takes its place. -/
def stagedPath (root : String) : String :=
  joinPath (folderPath root) "config.tmp"

end Stepflow.Project
