import Stepflow.Flow.Codec

/-!
# Reports

What a scan of a project found.

* `FileReport`, `FileError`, `Report`: the charts of each file, and the files that failed.
* `Report.json`, `Report.decoder`: a report as JSON.
-/

namespace Stepflow.Project

open Json (Value Decoder)

/-- The charts of a file, with the hash of its content. -/
structure FileReport where
  path : String
  contentHash : String
  charts : List Flow.Chart
  deriving DecidableEq, Repr

/-- A file that could not be read or does not fit the grammar. -/
structure FileError where
  path : String
  message : String
  deriving DecidableEq, Repr

/-- What a scan found: files with charts, files that failed, the number of files that were looked at
    and the time it took in milliseconds. -/
structure Report where
  files : List FileReport
  errors : List FileError
  scanned : Nat
  duration : Nat
  deriving DecidableEq, Repr

/-! ## Writing -/

/-- The charts of a file as JSON. -/
def FileReport.json (f : FileReport) : Value :=
  .object [("path", .string f.path), ("content_hash", .string f.contentHash),
    ("methods", .array (f.charts.map Flow.Chart.json))]

/-- A file that failed, as JSON. -/
def FileError.json (e : FileError) : Value :=
  .object [("path", .string e.path), ("message", .string e.message)]

/-- A report as JSON. -/
def Report.json (r : Report) : Value :=
  .object [("files", .array (r.files.map FileReport.json)),
    ("errors", .array (r.errors.map FileError.json)), ("scanned", .int r.scanned),
    ("duration_ms", .int r.duration)]

/-! ## Reading -/

/-- What is known of a file while it is read. -/
structure FileReport.Draft where
  path : Option String := none
  contentHash : Option String := none
  charts : Option (List Flow.Chart) := none

/-- The keys of a file. -/
def FileReport.slots : List (Decoder.Slot FileReport.Draft) :=
  [Decoder.slot "path" Decoder.text fun x f => { f with path := some x },
    Decoder.slot "content_hash" Decoder.text fun x f => { f with contentHash := some x },
    Decoder.slot "methods" (Decoder.list Flow.Chart.decoder) fun x f =>
      { f with charts := some x }]

/-- Reads the charts of a file. -/
def FileReport.decoder : Decoder FileReport := fun v => do
  let f ← Decoder.record FileReport.slots {} v
  return { path := ← Decoder.required f.path, contentHash := ← Decoder.required f.contentHash,
           charts := ← Decoder.required f.charts }

/-- What is known of a file that failed, while it is read. -/
structure FileError.Draft where
  path : Option String := none
  message : Option String := none

/-- The keys of a file that failed. -/
def FileError.slots : List (Decoder.Slot FileError.Draft) :=
  [Decoder.slot "path" Decoder.text fun x e => { e with path := some x },
    Decoder.slot "message" Decoder.text fun x e => { e with message := some x }]

/-- Reads a file that failed. -/
def FileError.decoder : Decoder FileError := fun v => do
  let e ← Decoder.record FileError.slots {} v
  return { path := ← Decoder.required e.path, message := ← Decoder.required e.message }

/-- What is known of a report while it is read. -/
structure Report.Draft where
  files : Option (List FileReport) := none
  errors : Option (List FileError) := none
  scanned : Option Nat := none
  duration : Option Nat := none

/-- The keys of a report. -/
def Report.slots : List (Decoder.Slot Report.Draft) :=
  [Decoder.slot "files" (Decoder.list FileReport.decoder) fun x r => { r with files := some x },
    Decoder.slot "errors" (Decoder.list FileError.decoder) fun x r => { r with errors := some x },
    Decoder.slot "scanned" (Decoder.word 64) fun x r => { r with scanned := some x },
    Decoder.slot "duration_ms" (Decoder.word 64) fun x r => { r with duration := some x }]

/-- Reads a report. -/
def Report.decoder : Decoder Report := fun v => do
  let r ← Decoder.record Report.slots {} v
  return { files := ← Decoder.required r.files, errors := ← Decoder.required r.errors,
           scanned := ← Decoder.required r.scanned, duration := ← Decoder.required r.duration }

end Stepflow.Project
