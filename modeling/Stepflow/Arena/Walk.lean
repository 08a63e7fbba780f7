import Stepflow.Arena.Basic

/-!
# Walks

A walk goes through the nodes below a place, each node before those below it, and lets a visitor
decide where to go down.

* `Visitor`: a handler for each kind that matters and one for all nodes. A handler answers whether
  to go down, or that it does not handle the node.
* `Visitor.dispatch`: the handler of the kind, then the handler for all, then going down.
* `Arena.walk`: the walk.
-/

namespace Stepflow

/-- What a handler does with a node: it may change the state, and answers whether the walk goes down
    here, or nothing if it does not handle the node. -/
abbrev Handler (σ : Type) := Nat → StateM σ (Option Bool)

/-- The handler that handles nothing. -/
def Handler.absent {σ : Type} : Handler σ := fun _ => pure none

/-- Handlers for the kinds that matter, and a fallback for all nodes that they do not handle. -/
structure Visitor (σ : Type) where
  classMethod : Handler σ := Handler.absent
  functionDeclaration : Handler σ := Handler.absent
  switchCase : Handler σ := Handler.absent
  variableDeclarator : Handler σ := Handler.absent
  identifier : String → Handler σ := fun _ => Handler.absent
  binaryExpression : String → Handler σ := fun _ => Handler.absent
  assignmentExpression : Handler σ := Handler.absent
  parenthesisExpression : Handler σ := Handler.absent
  numericLiteral : Double → Handler σ := fun _ => Handler.absent
  fallback : Handler σ := Handler.absent

namespace Visitor

variable {σ : Type}

/-- The handler for a kind. -/
def handler (v : Visitor σ) : Kind → Handler σ
  | .classMethod => v.classMethod
  | .functionDeclaration => v.functionDeclaration
  | .switchCase => v.switchCase
  | .variableDeclarator => v.variableDeclarator
  | .identifier name => v.identifier name
  | .binaryExpression operator => v.binaryExpression operator
  | .assignmentExpression _ => v.assignmentExpression
  | .parenthesisExpression => v.parenthesisExpression
  | .numericLiteral value => v.numericLiteral value
  | _ => Handler.absent

/-- Visits a node: its handler is asked, then the fallback; without an answer the walk goes down. -/
def dispatch (v : Visitor σ) (kind : Kind) (id : Nat) : StateM σ Bool := do
  match ← v.handler kind id with
  | some down => return down
  | none =>
    match ← v.fallback id with
    | some down => return down
    | none => return true

end Visitor

namespace Arena

variable {σ : Type}

/-- Visits the nodes that wait, the first one first; where the visitor goes down, the nodes below
    come before those that wait. The first argument bounds the number of visits. -/
def walkFrom (a : Arena) (v : Visitor σ) : Nat → List Nat → StateM σ Unit
  | 0, _ => pure ()
  | _ + 1, [] => pure ()
  | visits + 1, id :: waiting =>
    match a.node? id with
    | none => walkFrom a v visits waiting
    | some n => do
      if ← v.dispatch n.kind id then walkFrom a v visits (n.nodes ++ waiting)
      else walkFrom a v visits waiting

/-- Walks through a place and the nodes below it. No node is visited twice, so there are no more
    visits than nodes. -/
def walk (a : Arena) (v : Visitor σ) (start : Nat) : StateM σ Unit :=
  walkFrom a v a.size [start]

end Arena

end Stepflow
