import Stepflow.Json.Decode
import Stepflow.Json.Writer
import Stepflow.Tree.Basic

/-!
# Trees as JSON

A kind without a value is its tag, a kind with a value an object with the tag as its only key. A
node is an object with the keys `kind`, `span` and `fields`; fields are pairs of a name and a
branch.

* `Tree.json`, `Tree.decoder`: the two directions.
-/

namespace Stepflow

open Json (Value Decoder Fault)

/-! ## Writing -/

/-- A span as JSON. -/
def Span.json (s : Span) : Value :=
  .object [("start", .int s.start), ("end", .int s.stop)]

/-- A kind as JSON. -/
def Kind.json : Kind → Value
  | identifier name => .variant "Identifier" (.string name)
  | numericLiteral value => .variant "NumericLiteral" (.float value)
  | stringLiteral value => .variant "StringLiteral" (.string value)
  | booleanLiteral value => .variant "BooleanLiteral" (.bool value)
  | binaryExpression operator => .variant "BinaryExpression" (.string operator)
  | assignmentExpression operator => .variant "AssignmentExpression" (.string operator)
  | other tag => .variant "Other" (.string tag)
  | kind => .string kind.tag

/-- A field as JSON. -/
def Field.json (f : Field) : Value :=
  .string f.name

/-- A node as JSON. -/
def nodeJson (kind : Kind) (span : Span) (fields : List Value) : Value :=
  .object [("kind", kind.json), ("span", span.json), ("fields", .array fields)]

namespace Branch

mutual

/-- A branch as JSON. -/
def json : Branch → Value
  | node kind span fields => .variant "Node" (nodeJson kind span (entriesJson fields))
  | group entries => .variant "Group" (.array (entriesJson entries))
  | list items => .variant "List" (.array (itemsJson items))

/-- Entries as JSON. -/
def entriesJson : List (Field × Branch) → List Value
  | [] => []
  | (field, b) :: entries => .array [field.json, b.json] :: entriesJson entries

/-- Items as JSON. -/
def itemsJson : List Branch → List Value
  | [] => []
  | b :: items => b.json :: itemsJson items

end

end Branch

/-- A tree as JSON. -/
def Tree.json (t : Tree) : Value :=
  nodeJson t.kind t.span (Branch.entriesJson t.fields)

/-! ## Reading -/

/-- What is known of a span while it is read. -/
structure Span.Draft where
  start : Option Nat := none
  stop : Option Nat := none

/-- The keys of a span. -/
def Span.slots : List (Decoder.Slot Span.Draft) :=
  [Decoder.slot "start" (Decoder.word 64) fun n s => { s with start := some n },
    Decoder.slot "end" (Decoder.word 64) fun n s => { s with stop := some n }]

/-- Reads a span. -/
def Span.decoder : Decoder Span := fun v => do
  let draft ← Decoder.record Span.slots {} v
  return { start := ← Decoder.required draft.start, stop := ← Decoder.required draft.stop }

/-- The kinds without a value by their tags. -/
def Kind.byTag : List (String × Kind) :=
  Kind.plain.map fun (kind, tag) => (tag, kind)

/-- Reads a kind. -/
def Kind.decoder : Decoder Kind := fun v =>
  match v with
  | .object [(tag, payload)] =>
    match tag with
    | "Identifier" => (Decoder.text payload).map .identifier
    | "NumericLiteral" => (Decoder.double payload).map .numericLiteral
    | "StringLiteral" => (Decoder.text payload).map .stringLiteral
    | "BooleanLiteral" => (Decoder.bool payload).map .booleanLiteral
    | "BinaryExpression" => (Decoder.text payload).map .binaryExpression
    | "AssignmentExpression" => (Decoder.text payload).map .assignmentExpression
    | "Other" => (Decoder.text payload).map .other
    | _ => Decoder.name Kind.byTag v
  | v => Decoder.name Kind.byTag v

/-- Reads a field. -/
def Field.decoder : Decoder Field :=
  Decoder.name (Field.names.map fun (field, name) => (name, field))

/-- A pair of a field and a branch. -/
def entryDecoder (branch : Decoder Branch) : Decoder (Field × Branch)
  | .array [field, b] => do return (← Field.decoder field, ← branch b)
  | _ => .error .malformed

/-- What is known of a node while it is read. -/
structure Tree.Draft where
  kind : Option Kind := none
  span : Option Span := none
  fields : Option (List (Field × Branch)) := none

/-- The keys of a node. -/
def Tree.slots (branch : Decoder Branch) : List (Decoder.Slot Tree.Draft) :=
  [Decoder.slot "kind" Kind.decoder fun k t => { t with kind := some k },
    Decoder.slot "span" Span.decoder fun s t => { t with span := some s },
    Decoder.slot "fields" (Decoder.list (entryDecoder branch)) fun fs t =>
      { t with fields := some fs }]

/-- Reads a node, given how its branches are read. -/
def Tree.decoderWith (branch : Decoder Branch) : Decoder Tree := fun v => do
  let draft ← Decoder.record (Tree.slots branch) {} v
  return { kind := ← Decoder.required draft.kind, span := ← Decoder.required draft.span,
           fields := ← Decoder.required draft.fields }

/-- Reads a branch. The argument bounds the nesting. -/
def Branch.decoder : Nat → Decoder Branch
  | 0 => fun _ => .error .malformed
  | depth + 1 => fun v =>
    match v with
    | .object [("Node", v)] => (Tree.decoderWith (Branch.decoder depth) v).map Tree.branch
    | .object [("Group", v)] =>
      (Decoder.list (entryDecoder (Branch.decoder depth)) v).map .group
    | .object [("List", v)] => (Decoder.list (Branch.decoder depth) v).map .list
    | _ => .error .malformed

/-- Reads a tree. Texts are not nested more deeply than `Json.maxDepth`. -/
def Tree.decoder : Decoder Tree :=
  Tree.decoderWith (Branch.decoder Json.maxDepth)

end Stepflow
