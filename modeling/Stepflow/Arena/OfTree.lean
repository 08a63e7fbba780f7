import Stepflow.Arena.Gap
import Stepflow.Tree.Basic

/-!
# The arena of a tree

The nodes of a tree are collected by a loop over branches that wait: the branch that came last is
taken first, a node is collected and what it holds waits in turn, and a wrapper is replaced by its
parts.

Then the nodes are ordered by their spans: one that starts earlier comes first, and of those that
start together the one that ends later, so that a node comes before what it holds. Nodes with equal
spans keep the order in which they were collected.

* `Pending`: a branch that waits.
* `Collection`: the nodes that were collected, and lists of those that belong together.
* `Collection.ofTree`: the loop.
* `Span.precedes`: the order of spans.
* `Collection.order`: the numbers of the collected nodes in the order of their places.
* `Arena.ofTree`: the arena.
-/

namespace Stepflow

/-! ## The collection of nodes -/

/-- A node that was collected: the number of the list of the nodes that it holds, and the numbers of
    these nodes, each with its field. -/
structure Collected where
  kind : Kind
  span : Span
  list : Nat
  fields : Array (Field × Nat)

/-- A branch that waits: the list to which its nodes belong, and the number and the field of the
    node that holds them. -/
structure Pending where
  list : Nat
  owner : Option (Nat × Field)
  item : Branch

/-- The nodes that were collected, by their numbers, and lists of nodes that belong together. -/
structure Collection where
  nodes : Array Collected
  lists : Array (Array Nat)

namespace Branch

mutual

/-- The number of nodes and wrappers. -/
def weight : Branch → Nat
  | node _ _ fields => entriesWeight fields + 1
  | group entries => entriesWeight entries + 1
  | list items => itemsWeight items + 1

/-- The number of nodes and wrappers of entries. -/
def entriesWeight : List (Field × Branch) → Nat
  | [] => 0
  | (_, b) :: entries => b.weight + entriesWeight entries

/-- The number of nodes and wrappers of branches. -/
def itemsWeight : List Branch → Nat
  | [] => 0
  | b :: items => b.weight + itemsWeight items

end

end Branch

namespace Pending

/-- The branches of a node that has a number and a list of its own. -/
def ofFields (id own : Nat) (fields : List (Field × Branch)) : List Pending :=
  fields.map fun entry => { list := own, owner := some (id, entry.1), item := entry.2 }

/-- The members of a group, which take its place. Their own fields do not count. -/
def ofEntries (list : Nat) (owner : Option (Nat × Field)) (entries : List (Field × Branch)) :
    List Pending :=
  entries.map fun entry => { list := list, owner := owner, item := entry.2 }

/-- The members of a list, which take its place. -/
def ofItems (list : Nat) (owner : Option (Nat × Field)) (items : List Branch) : List Pending :=
  items.map fun b => { list := list, owner := owner, item := b }

/-- What is left to do while branches wait. -/
def weight : List Pending → Nat
  | [] => 0
  | p :: waiting => p.item.weight + weight waiting

theorem weight_append (waiting waiting' : List Pending) :
    weight (waiting ++ waiting') = weight waiting + weight waiting' := by
  induction waiting with
  | nil => simp [weight]
  | cons p waiting ih => rw [List.cons_append, weight, weight, ih, Nat.add_assoc]

theorem weight_reverse (waiting : List Pending) : weight waiting.reverse = weight waiting := by
  induction waiting with
  | nil => rfl
  | cons p waiting ih =>
    rw [List.reverse_cons, weight_append, ih, weight, weight, weight, Nat.add_zero, Nat.add_comm]

theorem weight_ofFields (id own : Nat) (fields : List (Field × Branch)) :
    weight (ofFields id own fields) = Branch.entriesWeight fields := by
  induction fields with
  | nil => rfl
  | cons entry fields ih => exact congrArg (entry.2.weight + ·) ih

theorem weight_ofEntries (list : Nat) (owner : Option (Nat × Field))
    (entries : List (Field × Branch)) :
    weight (ofEntries list owner entries) = Branch.entriesWeight entries := by
  induction entries with
  | nil => rfl
  | cons entry entries ih => exact congrArg (entry.2.weight + ·) ih

theorem weight_ofItems (list : Nat) (owner : Option (Nat × Field)) (items : List Branch) :
    weight (ofItems list owner items) = Branch.itemsWeight items := by
  induction items with
  | nil => rfl
  | cons b items ih => exact congrArg (b.weight + ·) ih

end Pending

namespace Collection

/-- Collects a node. It gets the next number and a list of its own, and is entered in the list to
    which it belongs and at the node that holds it. -/
def add (c : Collection) (list : Nat) (owner : Option (Nat × Field)) (kind : Kind) (span : Span) :
    Collection :=
  let id := c.nodes.size
  let entered :=
    match owner with
    | some (parent, field) =>
      c.nodes.modify parent fun n => { n with fields := n.fields.push (field, id) }
    | none => c.nodes
  { nodes := entered.push { kind := kind, span := span, list := c.lists.size, fields := #[] }
    lists := (c.lists.push #[]).modify list (·.push id) }

/-- Goes on until no branch waits. Of the branches of a node and of the members of a wrapper the
    last one comes to the front. -/
def collect (c : Collection) : List Pending → Collection
  | [] => c
  | ⟨list, owner, .node kind span fields⟩ :: waiting =>
    (c.add list owner kind span).collect
      ((Pending.ofFields c.nodes.size c.lists.size fields).reverse ++ waiting)
  | ⟨list, owner, .group entries⟩ :: waiting =>
    c.collect ((Pending.ofEntries list owner entries).reverse ++ waiting)
  | ⟨list, owner, .list items⟩ :: waiting =>
    c.collect ((Pending.ofItems list owner items).reverse ++ waiting)
termination_by waiting => Pending.weight waiting
decreasing_by
  · rw [Pending.weight_append, Pending.weight_reverse, Pending.weight_ofFields, Pending.weight,
      Branch.weight]
    omega
  · rw [Pending.weight_append, Pending.weight_reverse, Pending.weight_ofEntries, Pending.weight,
      Branch.weight]
    omega
  · rw [Pending.weight_append, Pending.weight_reverse, Pending.weight_ofItems, Pending.weight,
      Branch.weight]
    omega

/-- The nodes of a tree. At first there is one list, to which the topmost node belongs. -/
def ofTree (t : Tree) : Collection :=
  collect { nodes := #[], lists := #[#[]] } [{ list := 0, owner := none, item := t.branch }]

end Collection

/-! ## The order of nodes -/

/-- A span that starts earlier, or starts together and ends later. -/
def Span.precedes (x y : Span) : Bool :=
  x.start < y.start || (x.start == y.start && y.stop < x.stop)

namespace Collection

/-- The span of the node with a number. -/
def span (c : Collection) (id : Nat) : Span :=
  match c.nodes[id]? with
  | some n => n.span
  | none => default

/-- The second of two nodes does not precede the first. -/
def inOrder (c : Collection) (a b : Nat) : Bool :=
  !(c.span b).precedes (c.span a)

/-- The lists of nodes that belong together, each of them sorted. -/
def sortedLists (c : Collection) : Array (List Nat) :=
  c.lists.map fun ids => ids.toList.mergeSort c.inOrder

/-- The numbers in some lists, sorted. -/
def order (c : Collection) (lists : Array (List Nat)) : List Nat :=
  lists.toList.flatten.mergeSort c.inOrder

end Collection

/-- For each number in a list, its place in the list. -/
def placesOf (ids : List Nat) : Array Nat :=
  ids.zipIdx.foldl (fun places entry => places.setIfInBounds entry.1 entry.2)
    (Array.replicate ids.length 0)

/-- A collected node in the arena, its references given by places. -/
def Collected.node (n : Collected) (lists : Array (List Nat)) (places : Array Nat) : Node where
  kind := n.kind
  span := n.span.fromZero
  nodes := (lists[n.list]?.getD []).map fun id => places[id]?.getD 0
  fields := (n.fields.toList.map fun child => (child.1, places[child.2]?.getD 0)).mergeSort
    fun x y => x.2 ≤ y.2
  comment := none
  indentation := none

/-- The arena of a tree that was read from a source. -/
def Arena.ofTree (t : Tree) (source : List Char) : Arena :=
  let c := Collection.ofTree t
  let lists := c.sortedLists
  let order := c.order lists
  let places := placesOf order
  let nodes := order.filterMap fun id => c.nodes[id]?.map (·.node lists places)
  { nodes := (attachGaps source { start := 0, stop := 0 } nodes).toArray }

end Stepflow
