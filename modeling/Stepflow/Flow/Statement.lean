import Stepflow.Arena.Walk
import Stepflow.Flow.Chart

/-!
# The two shapes of a statement

A statement is an edge, such as `$test && ($next = 4)`, or an assignment, or anything else. Both
shapes are told by a walk: each node that belongs to the shape must be visited at one fixed turn.

* `Turn`: counts the visits and remembers a miss.
* `decision?`: the step of an edge.
* `assignment`: the name that is assigned and the place of the value.
-/

namespace Stepflow.Flow

/-- The variable that holds the result of the test. -/
def testVariable : String := "$test"

/-- The number of visits so far, and whether one of them came at a wrong turn. -/
structure Turn where
  count : Nat := 0
  missed : Bool := false
  deriving DecidableEq, Repr

namespace Turn

/-- Counts a visit that is expected at the given turn, or at none. -/
def advance (expected : Option Nat) (t : Turn) : Bool × Turn :=
  let hit := !t.missed && expected == some t.count
  (hit, { count := t.count + 1, missed := !hit })

end Turn

/-! ## Edges -/

/-- What is known of an edge during a walk. -/
structure DecisionState where
  turn : Turn := {}
  mode : Option Mode := none
  route : Option Route := none
  target : Double := Double.zero false

/-- Counts a visit; the walk goes down where it was expected. -/
def DecisionState.advance (expected : Option Nat) : StateM DecisionState (Option Bool) :=
  modifyGet fun s =>
    let (hit, turn) := s.turn.advance expected
    (some hit, { s with turn := turn })

/-- The visitor that looks for an edge. -/
def decisionVisitor : Visitor DecisionState where
  binaryExpression operator _ :=
    match Mode.ofOperator? operator with
    | some mode => do
      modify fun s => { s with mode := some mode }
      DecisionState.advance (some 0)
    | none => DecisionState.advance none
  identifier name _ :=
    if name = testVariable then DecisionState.advance (some 1)
    else
      match Route.ofVariable? name with
      | some route => do
        modify fun s => { s with route := some route }
        DecisionState.advance (some 4)
      | none => DecisionState.advance none
  parenthesisExpression _ := DecisionState.advance (some 2)
  assignmentExpression _ := DecisionState.advance (some 3)
  numericLiteral value _ := do
    modify fun s => { s with target := value }
    DecisionState.advance (some 5)
  fallback _ := DecisionState.advance none

/-- The step of an edge, if all turns were taken. -/
def DecisionState.step? (s : DecisionState) : Option Step :=
  if s.turn.missed ∨ s.turn.count < 6 then none
  else
    match s.mode, s.route with
    | some mode, some route => some (Step.decision route { target := s.target, mode := mode })
    | _, _ => none

/-- The step of the edge at a place. -/
def decision? (a : Arena) (id : Nat) : Option Step :=
  ((a.walk decisionVisitor id).run {}).2.step?

/-! ## Assignments -/

/-- What is known of an assignment during a walk. -/
structure AssignmentState where
  turn : Turn := {}
  name : String := ""
  value : Nat

/-- Counts a visit; the walk goes down where it was expected. -/
def AssignmentState.advance (expected : Nat) : StateM AssignmentState (Option Bool) :=
  modifyGet fun s =>
    let (hit, turn) := s.turn.advance (some expected)
    (some hit, { s with turn := turn })

/-- The visitor that looks for an assignment. What is neither an assignment nor an identifier is
    taken for the value. -/
def assignmentVisitor : Visitor AssignmentState where
  assignmentExpression _ := AssignmentState.advance 0
  identifier name _ := do
    modify fun s => { s with name := name }
    AssignmentState.advance 1
  fallback id := do
    modify fun s => { s with value := id }
    return some false

/-- The name that is assigned at a place and the place of the value; without an assignment the name
    is empty and the place stays. -/
def assignment (a : Arena) (id : Nat) : String × Nat :=
  let s := ((a.walk assignmentVisitor id).run { value := id }).2
  if s.turn.missed then ("", id) else (s.name, s.value)

end Stepflow.Flow
