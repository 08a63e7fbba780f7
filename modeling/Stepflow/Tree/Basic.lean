import Stepflow.Number.Double

/-!
# Trees

The constructs of a source text as the extraction of charts sees them. A node has a kind, a span
and children under field names. Between a node and the nodes below it there may be wrappers, which
have no span of their own.

* `Span`, `Kind`, `Field`: what a node is made of.
* `Branch`: a node, or a wrapper around further branches.
* `Tree`: the node at the top.
-/

namespace Stepflow

/-- A range of bytes that ends before `stop`. In a tree the first byte of a text has number 1. -/
structure Span where
  start : Nat
  stop : Nat
  deriving DecidableEq, Repr, Inhabited

namespace Span

/-- Number of bytes. -/
def length (s : Span) : Nat :=
  s.stop - s.start

/-- There is no byte in the span. -/
def isEmpty (s : Span) : Bool :=
  s.length == 0

/-- The same bytes counted from 0. -/
def fromZero (s : Span) : Span :=
  { start := s.start - 1, stop := s.stop - 1 }

end Span

/-- What a node is. The kinds that the extraction looks at have names of their own, with the value
    they carry; all others are known by their tag. -/
inductive Kind where
  | module
  | classDeclaration
  | classMethod
  | functionDeclaration
  | blockStatement
  | switchStatement
  | switchCase
  | breakStatement
  | expressionStatement
  | variableDeclaration
  | variableDeclarator
  | identifier (name : String)
  | numericLiteral (value : Double)
  | stringLiteral (value : String)
  | booleanLiteral (value : Bool)
  | binaryExpression (operator : String)
  | assignmentExpression (operator : String)
  | parenthesisExpression
  | typeAscription
  | invalid
  | other (tag : String)
  deriving DecidableEq, Repr

namespace Kind

/-- The kinds without a value, with their tags. -/
def plain : List (Kind × String) :=
  [(module, "Module"), (classDeclaration, "ClassDeclaration"), (classMethod, "ClassMethod"),
    (functionDeclaration, "FunctionDeclaration"), (blockStatement, "BlockStatement"),
    (switchStatement, "SwitchStatement"), (switchCase, "SwitchCase"),
    (breakStatement, "BreakStatement"), (expressionStatement, "ExpressionStatement"),
    (variableDeclaration, "VariableDeclaration"), (variableDeclarator, "VariableDeclarator"),
    (parenthesisExpression, "ParenthesisExpression"), (typeAscription, "TsTypeAnnotation"),
    (invalid, "Invalid")]

/-- The name of a kind. -/
def tag : Kind → String
  | identifier _ => "Identifier"
  | numericLiteral _ => "NumericLiteral"
  | stringLiteral _ => "StringLiteral"
  | booleanLiteral _ => "BooleanLiteral"
  | binaryExpression _ => "BinaryExpression"
  | assignmentExpression _ => "AssignmentExpression"
  | other tag => tag
  | kind => (plain.lookup kind).getD ""

end Kind

/-- The names under which a node holds its children. -/
inductive Field where
  | test
  | consequent
  | id
  | init
  | typeAscription
  | left
  | right
  | body
  | children
  deriving DecidableEq, Repr

namespace Field

/-- All fields with their names. -/
def names : List (Field × String) :=
  [(test, "Test"), (consequent, "Consequent"), (id, "Id"), (init, "Init"),
    (typeAscription, "TypeAnnotation"), (left, "Left"), (right, "Right"), (body, "Body"),
    (children, "Children")]

/-- The name of a field. -/
def name (f : Field) : String :=
  (names.lookup f).getD ""

end Field

/-- A child of a node: a node, or a wrapper. A `group` names its members, a `list` does not. -/
inductive Branch where
  | node (kind : Kind) (span : Span) (fields : List (Field × Branch))
  | group (entries : List (Field × Branch))
  | list (items : List Branch)
  deriving Repr

/-- The node at the top of a tree. -/
structure Tree where
  kind : Kind
  span : Span
  fields : List (Field × Branch)
  deriving Repr

/-- The tree as a branch. -/
def Tree.branch (t : Tree) : Branch :=
  .node t.kind t.span t.fields

/-- A node without children. -/
def Branch.leaf (kind : Kind) (span : Span) : Branch :=
  .node kind span []

end Stepflow
