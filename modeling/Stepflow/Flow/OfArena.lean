import Stepflow.Flow.Statement
import Stepflow.Text.Blank

/-!
# Charts of an arena

* `chart?`: the chart of a function or method, if its comment names one.
* `charts`: the charts of all functions and methods that do not lie in another one.
-/

namespace Stepflow.Flow

open Text

/-! ## Layout -/

/-- The length of the first indentation by spaces in front of something. -/
def bodyIndent : List Char → Nat
  | [] => 0
  | c :: cs =>
    let spaces := cs.takeWhile (· == ' ')
    let behind := cs.dropWhile (· == ' ')
    if c = '\n' ∧ spaces ≠ [] ∧ (behind.head?.any fun c => !isBlank c) then spaces.length
    else bodyIndent cs

/-- Removes an indentation from the front of a line that has it. -/
def dropIndent (indent line : List Char) : List Char :=
  if indent.isPrefixOf line then line.drop indent.length else line

/-- The code without blanks at its ends, every line without the indentation. -/
def reindent (code indent : List Char) : List Char :=
  joinWith ['\n'] ((splitOn '\n' (trim code)).map (dropIndent indent))

/-! ## Steps -/

/-- What the comment of a node says. -/
def commentText (n : Node) : String :=
  n.comment.getD ""

/-- The place at which a statement is looked at: an expression stands for its statement. -/
def subject (n : Node) (id : Nat) : Nat :=
  match n.kind, n.nodes with
  | .expressionStatement, first :: _ => first
  | _, _ => id

/-- The step of code at a place. -/
def codeStep (a : Arena) (source : List Char) (n : Node) (id : Nat) : Step :=
  let (name, value) := assignment a id
  let indent := (n.indentation.getD "").toList
  Step.ofCode (String.ofList (reindent (a.text source value) indent))
    (if name.isEmpty then none else some name)

/-- The step of a statement. -/
def step (a : Arena) (source : List Char) (n : Node) (id : Nat) : Step :=
  let place := subject n id
  let bare := match decision? a place with
    | some decision => decision
    | none => codeStep a source n place
  bare.annotate (Comment.annotations (commentText n))

/-- The steps of statements up to the first `break`. -/
def steps (a : Arena) (source : List Char) : List Nat → List Step
  | [] => []
  | id :: rest =>
    match a.node? id with
    | none => steps a source rest
    | some n =>
      if n.kind = .breakStatement then [] else step a source n id :: steps a source rest

/-- The number under which a case runs. -/
def caseId? (a : Arena) (n : Node) : Option Int := do
  let test ← n.firstIn? .test
  match ← a.kind? test with
  | .numericLiteral value => stepId? value
  | _ => none

/-- The sequence of a case; a case without a number or without steps has none. -/
def sequence? (a : Arena) (source : List Char) (n : Node) : Option Sequence := do
  let id ← caseId? a n
  match steps a source (n.allIn .consequent) with
  | [] => none
  | steps => some { id := id, steps := steps }

/-! ## Variables -/

/-- The value of a literal. -/
def initial? : Kind → Option Initial
  | .booleanLiteral b => some (.bool b)
  | .stringLiteral s => some (.text s)
  | .numericLiteral x =>
    match stepId? x with
    | some n => some (.int n)
    | none => if x.isFinite then some (.float x) else none
  | _ => none

/-- The source of a type without the colon in front of it. -/
def typeText? (a : Arena) (source : List Char) (id : Nat) : Option String := do
  let first ← a.node? (← (a.below id).head?)
  let last ← a.node? (← (a.below id).getLast?)
  (slice? source first.span.start last.span.stop).map String.ofList

/-- The character with which control variables begin. -/
def controlMark : Char := '$'

/-- The variable of a declarator; control variables and patterns are left out. -/
def declared? (a : Arena) (source : List Char) (n : Node) : Option Variable := do
  let binding ← a.node? (← n.firstIn? .id)
  match binding.kind with
  | .identifier name =>
    if name.toList.head? = some controlMark then none
    else
      some {
        name := name
        type := (binding.firstIn? .typeAscription).bind (typeText? a source)
        init := ((n.firstIn? .init).bind a.kind?).bind initial? }
  | _ => none

/-! ## Charts -/

/-- The variables and sequences that were found, the last one first. -/
structure Content where
  vars : List Variable := []
  body : List Sequence := []

/-- The visitor that collects variables and sequences. Neither is looked for inside another. -/
def contentVisitor (a : Arena) (source : List Char) : Visitor Content where
  switchCase id := do
    match (a.node? id).bind (sequence? a source) with
    | some s => modify fun c => { c with body := s :: c.body }
    | none => pure ()
    return some false
  variableDeclarator id := do
    match (a.node? id).bind (declared? a source) with
    | some v => modify fun c => { c with vars := v :: c.vars }
    | none => pure ()
    return some false

/-- The chart at a place, if the comment there gives it an identifier and a name. -/
def chart? (a : Arena) (source : List Char) (id : Nat) : Option Chart := do
  let n ← a.node? id
  let tags := Comment.headers (commentText n)
  let (chartId, name) ← tags.identity?
  let content := ((a.walk (contentVisitor a source) id).run {}).2
  return {
    id := chartId
    name := name
    info := tags.get? "info"
    px := tags.get? "px"
    indent := (bodyIndent (a.text source id), (n.indentation.getD "").length)
    span := (n.span.start, n.span.stop)
    vars := content.vars.reverse
    body := content.body.reverse }

/-- Collects the chart at a place; nothing is looked for below it. -/
def collect (a : Arena) (source : List Char) : Handler (List Chart) := fun id => do
  match chart? a source id with
  | some chart => modify (chart :: ·)
  | none => pure ()
  return some false

/-- The visitor that collects charts. -/
def chartVisitor (a : Arena) (source : List Char) : Visitor (List Chart) where
  classMethod := collect a source
  functionDeclaration := collect a source

/-- The charts of an arena. -/
def charts (a : Arena) (source : List Char) : List Chart :=
  match a.root? with
  | some root => ((a.walk (chartVisitor a source) root).run []).2.reverse
  | none => []

end Stepflow.Flow
