import Stepflow.Flow.Chart
import Stepflow.Json.Decode
import Stepflow.Json.Writer

/-!
# Charts as JSON

What is absent is left out, and so are empty lists. Edges and pairs of numbers are texts.

* `Step.json`, `Sequence.json`, `Variable.json`, `Chart.json`: writing.
* `Step.decoder`, `Sequence.decoder`, `Variable.decoder`, `Chart.decoder`: reading.
* `pairText`, `pairOfText`: pairs of numbers.
-/

namespace Stepflow.Flow

open Json (Value Decoder Fault)

/-! ## Pairs of numbers -/

/-- The written form of two numbers. -/
def pairText (p : Nat × Nat) : String :=
  toString p.1 ++ " " ++ toString p.2

/-- Reads two numbers of at most 64 bits with one space between them. -/
def pairOfText? (s : String) : Option (Nat × Nat) :=
  match Text.splitOn ' ' s.toList with
  | [first, second] => do return (← wordOfNumeral? 10 first, ← wordOfNumeral? 10 second)
  | _ => none

/-- Reads a pair of numbers. -/
def pairDecoder : Decoder (Nat × Nat) := fun v => do
  let s ← Decoder.text v
  match pairOfText? s with
  | some p => .ok p
  | none => .error (.refused ("invalid number pair '" ++ s ++ "'"))

/-! ## Writing -/

/-- A member that may be absent. -/
def optionalMember {α : Type} (key : String) (json : α → Value) : Option α → List (String × Value)
  | some x => [(key, json x)]
  | none => []

/-- A member for a list, absent if the list is empty. -/
def listMember {α : Type} (key : String) (json : α → Value) : List α → List (String × Value)
  | [] => []
  | xs => [(key, .array (xs.map json))]

/-- An edge as JSON. -/
def Edge.json (e : Edge) : Value :=
  .string e.text

/-- A step as JSON. -/
def Step.json (s : Step) : Value :=
  .object (optionalMember "code" .string s.code ++ optionalMember "assign" .string s.assign ++
    optionalMember "fail" Edge.json s.fail ++ optionalMember "last" Edge.json s.last ++
    optionalMember "next" Edge.json s.next ++ optionalMember "name" .string s.name ++
    optionalMember "info" .string s.info ++ optionalMember "px" .string s.px)

/-- A sequence as JSON. -/
def Sequence.json (s : Sequence) : Value :=
  .object [("id", .int s.id), ("steps", .array (s.steps.map Step.json))]

/-- The first value of a variable as JSON. -/
def Initial.json : Initial → Value
  | bool b => .bool b
  | int n => .int n
  | float x => .float x
  | text s => .string s

/-- A variable as JSON. -/
def Variable.json (v : Variable) : Value :=
  .object (("name", .string v.name) :: optionalMember "type" .string v.type ++
    optionalMember "init" Initial.json v.init)

/-- A chart as JSON. -/
def Chart.json (c : Chart) : Value :=
  .object (("id", .string c.id) :: ("name", .string c.name) ::
    optionalMember "info" .string c.info ++ optionalMember "px" .string c.px ++
    ("indent", .string (pairText c.indent)) :: ("span", .string (pairText c.span)) ::
    listMember "vars" Variable.json c.vars ++ listMember "body" Sequence.json c.body)

/-- What a comment says about a step, as JSON. -/
def annotationsJson (a : Comment.Annotations) : Value :=
  .object [("name", .ofOption .string a.name), ("info", .ofOption .string a.info),
    ("px", .ofOption .string a.px)]

/-! ## Reading -/

/-- Reads an edge. -/
def Edge.decoder : Decoder Edge := fun v => do
  match Edge.ofText (← Decoder.text v) with
  | .ok e => .ok e
  | .error fault => .error (.refused fault.message)

/-- A text that may be absent. -/
def optionalText : Decoder (Option String) :=
  Decoder.optional Decoder.text

/-- An edge that may be absent. -/
def optionalEdge : Decoder (Option Edge) :=
  Decoder.optional Edge.decoder

/-- The keys of a step. -/
def Step.slots : List (Decoder.Slot Step) :=
  [Decoder.spareSlot "code" optionalText fun x s => { s with code := x },
    Decoder.spareSlot "assign" optionalText fun x s => { s with assign := x },
    Decoder.spareSlot "fail" optionalEdge fun x s => { s with fail := x },
    Decoder.spareSlot "last" optionalEdge fun x s => { s with last := x },
    Decoder.spareSlot "next" optionalEdge fun x s => { s with next := x },
    Decoder.spareSlot "name" optionalText fun x s => { s with name := x },
    Decoder.spareSlot "info" optionalText fun x s => { s with info := x },
    Decoder.spareSlot "px" optionalText fun x s => { s with px := x }]

/-- Reads a step. -/
def Step.decoder : Decoder Step :=
  Decoder.record Step.slots {}

/-- What is known of a sequence while it is read. -/
structure Sequence.Draft where
  id : Option Int := none
  steps : Option (List Step) := none

/-- The keys of a sequence. -/
def Sequence.slots : List (Decoder.Slot Sequence.Draft) :=
  [Decoder.slot "id" (Decoder.int (-idBound) idBound) fun x s => { s with id := some x },
    Decoder.slot "steps" (Decoder.list Step.decoder) fun x s => { s with steps := some x }]

/-- Reads a sequence. -/
def Sequence.decoder : Decoder Sequence := fun v => do
  let s ← Decoder.record Sequence.slots {} v
  return { id := ← Decoder.required s.id, steps := ← Decoder.required s.steps }

/-- Reads the first value of a variable. -/
def Initial.decoder : Decoder Initial
  | .bool b => .ok (.bool b)
  | .int n => .ok (.int n)
  | .float x => .ok (.float x)
  | .string s => .ok (.text s)
  | _ => .error .malformed

/-- What is known of a variable while it is read. -/
structure Variable.Draft where
  name : Option String := none
  type : Option String := none
  init : Option Initial := none

/-- The keys of a variable. -/
def Variable.slots : List (Decoder.Slot Variable.Draft) :=
  [Decoder.slot "name" Decoder.text fun x v => { v with name := some x },
    Decoder.spareSlot "type" optionalText fun x v => { v with type := x },
    Decoder.spareSlot "init" (Decoder.optional Initial.decoder) fun x v => { v with init := x }]

/-- Reads a variable. -/
def Variable.decoder : Decoder Variable := fun v => do
  let d ← Decoder.record Variable.slots {} v
  return { name := ← Decoder.required d.name, type := d.type, init := d.init }

/-- What is known of a chart while it is read. -/
structure Chart.Draft where
  id : Option String := none
  name : Option String := none
  info : Option String := none
  px : Option String := none
  indent : Option (Nat × Nat) := none
  span : Option (Nat × Nat) := none
  vars : List Variable := []
  body : List Sequence := []

/-- The keys of a chart. -/
def Chart.slots : List (Decoder.Slot Chart.Draft) :=
  [Decoder.slot "id" Decoder.text fun x c => { c with id := some x },
    Decoder.slot "name" Decoder.text fun x c => { c with name := some x },
    Decoder.spareSlot "info" optionalText fun x c => { c with info := x },
    Decoder.spareSlot "px" optionalText fun x c => { c with px := x },
    Decoder.slot "indent" pairDecoder fun x c => { c with indent := some x },
    Decoder.slot "span" pairDecoder fun x c => { c with span := some x },
    Decoder.spareSlot "vars" (Decoder.list Variable.decoder) fun x c => { c with vars := x },
    Decoder.spareSlot "body" (Decoder.list Sequence.decoder) fun x c => { c with body := x }]

/-- Reads a chart. -/
def Chart.decoder : Decoder Chart := fun v => do
  let c ← Decoder.record Chart.slots {} v
  return { id := ← Decoder.required c.id, name := ← Decoder.required c.name, info := c.info,
           px := c.px, indent := ← Decoder.required c.indent, span := ← Decoder.required c.span,
           vars := c.vars, body := c.body }

/-- The keys of what a comment says about a step. -/
def annotationsSlots : List (Decoder.Slot Comment.Annotations) :=
  [Decoder.slot "name" optionalText fun x a => { a with name := x },
    Decoder.slot "info" optionalText fun x a => { a with info := x },
    Decoder.slot "px" optionalText fun x a => { a with px := x }]

/-- Reads what a comment says about a step. -/
def annotationsDecoder : Decoder Comment.Annotations :=
  Decoder.record annotationsSlots { name := none, info := none, px := none }

/-- The modes by their names. -/
def Mode.byName : List (String × Mode) :=
  [("And", .holds), ("Or", .fails)]

/-- The name of a mode. -/
def Mode.name : Mode → String
  | holds => "And"
  | fails => "Or"

/-- The routes by their names. -/
def Route.byName : List (String × Route) :=
  [("Fail", .fail), ("Last", .last), ("Next", .next)]

/-- The name of a route. -/
def Route.name : Route → String
  | fail => "Fail"
  | last => "Last"
  | next => "Next"

end Stepflow.Flow
