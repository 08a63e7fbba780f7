import Stepflow.Arena.Basic
import Stepflow.Tree.Codec

/-!
# Arenas as JSON

* `Arena.json`: an object with the list of nodes.
-/

namespace Stepflow

open Json (Value)

/-- A node of an arena as JSON. -/
def Node.json (n : Node) : Value :=
  .object [("kind", n.kind.json), ("span", n.span.json),
    ("nodes", .array (n.nodes.map fun (id : Nat) => .int id)),
    ("fields", .array (n.fields.map fun entry => .array [entry.1.json, .int entry.2])),
    ("comment", Value.ofOption .string n.comment), ("prefix", Value.ofOption .string n.indentation)]

/-- An arena as JSON. -/
def Arena.json (a : Arena) : Value :=
  .object [("nodes", .array (a.nodes.toList.map Node.json))]

end Stepflow
