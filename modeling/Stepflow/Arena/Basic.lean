import Stepflow.Text.Bytes
import Stepflow.Tree.Basic

/-!
# Arenas

All nodes of a tree in one sequence. A node refers to the nodes directly below it by their places in
the sequence, and knows what the text says in front of it.

* `Node`, `Arena`: the sequence.
* `Arena.text`: the part of the source that a node covers.
-/

namespace Stepflow

/-- A node of an arena. Its span counts bytes from 0. `nodes` are the places of the nodes directly
    below it, `fields` the same places with the fields through which they are reached. `comment` and
    `indentation` are what the text in front of the node says. -/
structure Node where
  kind : Kind
  span : Span
  nodes : List Nat
  fields : List (Field × Nat)
  comment : Option String
  indentation : Option String
  deriving DecidableEq, Repr

namespace Node

/-- The places of the nodes that are reached through a field. -/
def allIn (field : Field) (n : Node) : List Nat :=
  (n.fields.filter fun entry => entry.1 == field).map (·.2)

/-- The place of the first node that is reached through a field. -/
def firstIn? (field : Field) (n : Node) : Option Nat :=
  (n.allIn field).head?

end Node

/-- The nodes of a tree. -/
structure Arena where
  nodes : Array Node
  deriving DecidableEq, Repr

namespace Arena

/-- Number of nodes. -/
def size (a : Arena) : Nat :=
  a.nodes.size

/-- The node at a place. -/
def node? (a : Arena) (id : Nat) : Option Node :=
  a.nodes[id]?

/-- The kind of the node at a place. -/
def kind? (a : Arena) (id : Nat) : Option Kind :=
  (a.node? id).map (·.kind)

/-- The places of the nodes directly below a place. -/
def below (a : Arena) (id : Nat) : List Nat :=
  match a.node? id with
  | some n => n.nodes
  | none => []

/-- The place of the outermost node, if there is a node. -/
def root? (a : Arena) : Option Nat :=
  if a.size = 0 then none else some 0

/-- The part of the source that a node covers; nothing if its span does not fit the source. -/
def text (a : Arena) (source : List Char) (id : Nat) : List Char :=
  match a.node? id with
  | some n => Text.slice source n.span.start n.span.stop
  | none => []

end Arena

end Stepflow
