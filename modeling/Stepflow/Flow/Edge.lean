import Stepflow.Number.Shortest
import Stepflow.Text.Pieces

/-!
# Edges

An edge leads from a step to the sequence with the target number, under the condition that the test
before it holds or fails. It is written as the target, a space and an operator.

* `Mode`, `Route`, `Edge`: when an edge is taken, which control variable it sets, and the edge.
* `Edge.text`, `Edge.ofText`: the written form and its reading.
-/

namespace Stepflow.Flow

/-- When an edge is taken. -/
inductive Mode where
  | holds
  | fails
  deriving DecidableEq, Repr

namespace Mode

/-- The operator that joins the test and the edge. -/
def operator : Mode → String
  | holds => "&&"
  | fails => "||"

/-- The mode of an operator. -/
def ofOperator? : String → Option Mode
  | "&&" => some holds
  | "||" => some fails
  | _ => none

theorem ofOperator?_eq_some_iff {operator : String} {mode : Mode} :
    ofOperator? operator = some mode ↔ operator = mode.operator := by
  constructor
  · intro h
    unfold ofOperator? at h
    split at h <;> cases h <;> rfl
  · rintro rfl
    cases mode <;> rfl

end Mode

/-- Which control variable an edge sets. -/
inductive Route where
  | fail
  | last
  | next
  deriving DecidableEq, Repr

namespace Route

/-- The key of a route. -/
def key : Route → String
  | fail => "fail"
  | last => "last"
  | next => "next"

/-- The route of a control variable. -/
def ofVariable? : String → Option Route
  | "$fail" => some fail
  | "$last" => some last
  | "$next" => some next
  | _ => none

end Route

/-- An edge to the sequence with the target number. -/
structure Edge where
  target : Double
  mode : Mode
  deriving DecidableEq, Repr

namespace Edge

/-- The written form of an edge. -/
def text (e : Edge) : String :=
  e.target.label ++ " " ++ e.mode.operator

/-- Why a text is not an edge. -/
inductive Fault where
  | noSpace (text : String)
  | target (text : String)
  | mode (text : String)
  deriving DecidableEq, Repr

/-- Why a text is not a number. -/
def numeralFault (s : String) : String :=
  if s.isEmpty then "cannot parse float from empty string" else "invalid float literal"

/-- The fault in words. -/
def Fault.message : Fault → String
  | noSpace s => "invalid edge '" ++ s ++ "'"
  | target s => "invalid edge target '" ++ s ++ "': " ++ numeralFault s
  | mode s => "invalid edge mode '" ++ s ++ "'"

/-- The two parts of a text around its first space. -/
def halves? (s : String) : Option (String × String) :=
  match s.toList.dropWhile (· != ' ') with
  | _ :: rest => some (String.ofList (s.toList.takeWhile (· != ' ')), String.ofList rest)
  | [] => none

/-- Reads an edge. -/
def ofText (s : String) : Except Fault Edge :=
  match halves? s with
  | none => .error (.noSpace s)
  | some (number, operator) =>
    match Double.ofNumeral? number.toList with
    | none => .error (.target number)
    | some target =>
      match Mode.ofOperator? operator with
      | none => .error (.mode operator)
      | some mode => .ok { target := target, mode := mode }

end Edge

end Stepflow.Flow
