/-!
# Concrete trees

What a grammar sees in a text: every construct with the byte range it covers and, for tokens, its
spelling. A place that could not be read is a node as well, so a concrete tree always exists.

* `Standing`: whether a node is a construct, mere punctuation, or a fault.
* `Concrete`: a node with its children in source order.
* `Concrete.HasFault`: some node of the tree is a fault.
-/

namespace Stepflow

/-- What a concrete node stands for: a construct of the grammar, a piece of punctuation, a stretch
    that does not fit the grammar, or a token that the grammar asks for and the text lacks. -/
inductive Standing where
  | named
  | punctuation
  | error
  | missing
  deriving DecidableEq, Repr

/-- A node of a concrete tree. `kind` is the name of the construct, `role` the name of its place in
    the parent, `start` and `stop` delimit its bytes. Tokens keep their spelling in `text`; for
    larger constructs it is empty. -/
structure Concrete where
  kind : String
  standing : Standing
  role : Option String
  start : Nat
  stop : Nat
  text : String
  children : List Concrete
  deriving Repr

namespace Concrete

/-- The node is a fault: it does not fit the grammar or is not in the text. -/
def isFault (n : Concrete) : Bool :=
  match n.standing with
  | .error | .missing => true
  | .named | .punctuation => false

/-- The first child with the given role. -/
def child? (n : Concrete) (role : String) : Option Concrete :=
  n.children.find? fun c => c.role == some role

/-- The node takes a place in its parent, unless it has one already. -/
def inRole (role : String) (n : Concrete) : Concrete :=
  match n.role with
  | some _ => n
  | none => { n with role := some role }

/-- Some node of the tree is a fault. -/
inductive HasFault : Concrete → Prop
  | self {n : Concrete} (h : n.isFault = true) : HasFault n
  | child {n c : Concrete} (hc : c ∈ n.children) (h : HasFault c) : HasFault n

end Concrete

end Stepflow
