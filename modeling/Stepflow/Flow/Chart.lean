import Stepflow.Comment.Tags
import Stepflow.Flow.Edge

/-!
# Charts

A chart describes a function that runs in numbered sequences of steps.

* `Step`: a piece of code or an edge, with what its comment says.
* `Sequence`: the steps under one number.
* `Variable`: a local variable.
* `Chart`: the function.
-/

namespace Stepflow.Flow

/-- One statement of a sequence. A step of code may name the variable that takes its result. -/
structure Step where
  code : Option String := none
  assign : Option String := none
  fail : Option Edge := none
  last : Option Edge := none
  next : Option Edge := none
  name : Option String := none
  info : Option String := none
  px : Option String := none
  deriving DecidableEq, Repr

namespace Step

/-- A step that holds one edge. -/
def decision (route : Route) (edge : Edge) : Step :=
  match route with
  | .fail => { fail := some edge }
  | .last => { last := some edge }
  | .next => { next := some edge }

/-- A step of code. -/
def ofCode (code : String) (assign : Option String) : Step :=
  { code := some code, assign := assign }

/-- The step with what a comment says, in place of what was said before. -/
def annotate (s : Step) (a : Comment.Annotations) : Step :=
  { s with name := a.name, info := a.info, px := a.px }

/-- The edge of a step with its route. -/
def edge? (s : Step) : Option (Route × Edge) :=
  match s.fail, s.last, s.next with
  | some e, _, _ => some (.fail, e)
  | none, some e, _ => some (.last, e)
  | none, none, some e => some (.next, e)
  | none, none, none => none

end Step

/-- The steps under one number. -/
structure Sequence where
  id : Int
  steps : List Step
  deriving DecidableEq, Repr

/-- The value with which a variable starts. -/
inductive Initial where
  | bool (b : Bool)
  | int (n : Int)
  | float (x : Double)
  | text (s : String)
  deriving DecidableEq, Repr

/-- A local variable. -/
structure Variable where
  name : String
  type : Option String
  init : Option Initial
  deriving DecidableEq, Repr

/-- A function that runs in sequences of steps. `indent` holds the indentation of its body and that
    of its head, `span` the bytes that it covers in the source. -/
structure Chart where
  id : String
  name : String
  info : Option String
  px : Option String
  indent : Nat × Nat
  span : Nat × Nat
  vars : List Variable
  body : List Sequence
  deriving DecidableEq, Repr

/-- The numbers of sequences are from `-idBound` up to, but without, `idBound`. -/
def idBound : Int := Nat.pow 2 63

/-- The number of a sequence: an integer, brought into the range of 64 bits with a sign. -/
def stepId? (x : Double) : Option Int :=
  x.toInt?.map fun n => max (-idBound) (min n (idBound - 1))

end Stepflow.Flow
