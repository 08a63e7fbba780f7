import Stepflow.Arena.OfTree

/-!
# Collected nodes by recursion

The loop that collects the nodes of a tree has a counterpart without a stack. A wrapper adds nothing
to a tree: the nodes inside it belong to the nearest node around it, under the field of that node.
So wrappers are taken away first, and the rest is a recursion over nodes.

* `Plain`: a tree of nodes only. Children are listed from the last one to the first one.
* `Tree.plain`: a tree with its wrappers taken away.
* `Plain.size`: the number of nodes.
* `Plain.stage`: the nodes of a tree as they are collected, with numbers for references.
* `Staging.order`: the numbers of the collected nodes in the order of their places.
* `Staging.arranged`: the nodes in the order of their places.
-/

namespace Stepflow

/-! ## Trees without wrappers -/

/-- A node with the nodes directly below it, the last one first, each with the field through which
    it is reached. -/
structure Plain where
  kind : Kind
  span : Span
  children : List (Field × Plain)
  deriving Repr

namespace Branch

mutual

/-- Puts the nodes of a branch in front of those that were found before it. -/
def push (field : Field) (found : List (Field × Plain)) : Branch → List (Field × Plain)
  | node kind span fields => (field, ⟨kind, span, pushFields [] fields⟩) :: found
  | group entries => pushEntries field found entries
  | list items => pushItems field found items

/-- Puts the nodes of entries in front, each under its own field. -/
def pushFields (found : List (Field × Plain)) : List (Field × Branch) → List (Field × Plain)
  | [] => found
  | (field, b) :: entries => pushFields (push field found b) entries

/-- Puts the nodes of entries in front, all under one field. -/
def pushEntries (field : Field) (found : List (Field × Plain)) :
    List (Field × Branch) → List (Field × Plain)
  | [] => found
  | (_, b) :: entries => pushEntries field (push field found b) entries

/-- Puts the nodes of branches in front, all under one field. -/
def pushItems (field : Field) (found : List (Field × Plain)) : List Branch → List (Field × Plain)
  | [] => found
  | b :: items => pushItems field (push field found b) items

end

end Branch

/-- The tree without its wrappers. -/
def Tree.plain (t : Tree) : Plain :=
  ⟨t.kind, t.span, Branch.pushFields [] t.fields⟩

namespace Plain

mutual

/-- Number of nodes. -/
def size : Plain → Nat
  | ⟨_, _, children⟩ => sizes children + 1

/-- Number of nodes of several trees. -/
def sizes : List (Field × Plain) → Nat
  | [] => 0
  | (_, p) :: rest => p.size + sizes rest

end

end Plain

/-! ## Numbered nodes -/

/-- A node that was collected: its children are given by their numbers. -/
structure Staged where
  kind : Kind
  span : Span
  children : List (Field × Nat)
  deriving Repr

namespace Plain

/-- The numbers of trees that are collected one after the other, from `base` on. -/
def numbers (base : Nat) : List (Field × Plain) → List (Field × Nat)
  | [] => []
  | (field, p) :: rest => (field, base) :: numbers (base + p.size) rest

mutual

/-- The nodes of a tree, each in front of those below it. The node at the top has the number
    `base`. -/
def stage (base : Nat) : Plain → List Staged
  | ⟨kind, span, children⟩ =>
    { kind := kind, span := span, children := numbers (base + 1) children } ::
      stages (base + 1) children

/-- The nodes of trees that are collected one after the other. -/
def stages (base : Nat) : List (Field × Plain) → List Staged
  | [] => []
  | (_, p) :: rest => p.stage base ++ stages (base + p.size) rest

end

end Plain

/-- The nodes of a tree in the order of their numbers. -/
structure Staging where
  nodes : Array Staged

namespace Staging

/-- The nodes of a tree. -/
def ofTree (t : Tree) : Staging :=
  { nodes := (t.plain.stage 0).toArray }

/-- The span of the node with a number. -/
def span (s : Staging) (id : Nat) : Span :=
  match s.nodes[id]? with
  | some n => n.span
  | none => default

/-- The second of two nodes does not precede the first. -/
def inOrder (s : Staging) (a b : Nat) : Bool :=
  !(s.span b).precedes (s.span a)

/-- The children of a node, sorted. -/
def childList (s : Staging) (n : Staged) : List Nat :=
  (n.children.map (·.2)).mergeSort s.inOrder

/-- The numbers of all nodes, sorted. -/
def order (s : Staging) : List Nat :=
  ([0] :: s.nodes.toList.map s.childList).flatten.mergeSort s.inOrder

end Staging

namespace Staging

/-- A collected node in the arena, its references given by places. -/
def node (s : Staging) (places : Array Nat) (n : Staged) : Node where
  kind := n.kind
  span := n.span.fromZero
  nodes := (s.childList n).map fun id => places[id]?.getD 0
  fields := (n.children.map fun child => (child.1, places[child.2]?.getD 0)).mergeSort
    fun x y => x.2 ≤ y.2
  comment := none
  indentation := none

/-- The nodes of the arena before they are told what their gaps say. -/
def arranged (s : Staging) : List Node :=
  s.order.filterMap fun id => s.nodes[id]?.map (s.node (placesOf s.order))

end Staging

end Stepflow
