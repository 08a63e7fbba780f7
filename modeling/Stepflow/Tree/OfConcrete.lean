import Stepflow.Concrete
import Stepflow.Text.Pieces
import Stepflow.Tree.Basic
import Stepflow.Tree.Literal

/-!
# Trees of concrete trees

A concrete tree names every construct of the grammar. Here it becomes a tree: punctuation and
comments disappear, faults become invalid nodes, and constructs that merely hold others become
wrappers.

* `Concrete.branch?`: what becomes of a node.
* `Concrete.tree?`: the tree of a whole text.
-/

namespace Stepflow

/-! ## Kinds and fields -/

/-- Constructs whose tag is not their own name. -/
def renamedTags : List (String × String) :=
  [("predefined_type", "TsKeywordType"), ("union_type", "TsUnionType"),
    ("type_identifier", "TsTypeReference"), ("template_string", "TemplateLiteral"),
    ("arrow_function", "ArrowFunctionExpression"), ("object", "ObjectExpression"),
    ("array", "ArrayExpression"), ("pair", "KeyValueProperty"),
    ("export_statement", "ExportDeclaration"), ("import_statement", "ImportDeclaration"),
    ("this", "ThisExpression"), ("null", "NullLiteral"), ("regex", "RegExpLiteral")]

/-- A word with its first letter in upper case. -/
def capitalized : List Char → List Char
  | [] => []
  | c :: cs => c.toUpper :: cs

/-- The tag of a construct: the words of its name, each with a capital letter. -/
def tagOf (kind : String) : String :=
  match renamedTags.lookup kind with
  | some tag => tag
  | none => String.ofList ((Text.splitOn '_' kind.toList).flatMap capitalized)

/-- The field in which a construct holds a child with the given role. -/
def fieldFor (parent : String) (role : Option String) : Field :=
  if parent = "switch_case" ∨ parent = "switch_default" then
    if role = some "value" then .test else .consequent
  else
    match role with
    | some "left" => .left
    | some "right" => .right
    | some "body" => .body
    | _ => .children

namespace Concrete

/-- The kind of a method: only those in a class that are neither private nor the constructor are
    class methods. -/
def methodKind (parent : String) (n : Concrete) : Kind :=
  if parent = "class_body" then
    match n.child? "name" with
    | some name =>
      if name.kind = "private_property_identifier" then .other "PrivateMethod"
      else if name.text = "constructor" then .other "Constructor"
      else .classMethod
    | none => .classMethod
  else .other "MethodProperty"

/-- The text of the operator of an expression. -/
def operator (n : Concrete) : String :=
  match n.child? "operator" with
  | some sign => sign.text
  | none => ""

/-- The kind of a construct that stands in `parent`. -/
def kindIn (parent : String) (n : Concrete) : Kind :=
  match n.kind with
  | "program" => .module
  | "class_declaration" | "abstract_class_declaration" => .classDeclaration
  | "method_definition" => n.methodKind parent
  | "function_declaration" | "generator_function_declaration" => .functionDeclaration
  | "statement_block" => .blockStatement
  | "switch_statement" => .switchStatement
  | "switch_case" | "switch_default" => .switchCase
  | "break_statement" => .breakStatement
  | "expression_statement" => .expressionStatement
  | "lexical_declaration" | "variable_declaration" => .variableDeclaration
  | "identifier" | "property_identifier" | "shorthand_property_identifier"
  | "shorthand_property_identifier_pattern" | "private_property_identifier" | "undefined" =>
    .identifier n.text
  | "number" =>
    if n.text.toList.getLast? = some 'n' then .other "BigIntLiteral"
    else .numericLiteral (Literal.numberValue n.text)
  | "string" => .stringLiteral (Literal.stringValue n.text)
  | "true" => .booleanLiteral true
  | "false" => .booleanLiteral false
  | "binary_expression" => .binaryExpression n.operator
  | "assignment_expression" => .assignmentExpression "="
  | "augmented_assignment_expression" => .assignmentExpression n.operator
  | "parenthesized_expression" => .parenthesisExpression
  | "type_annotation" => .typeAscription
  | kind => .other (tagOf kind)

/-- The bytes of a node, the first byte of the text having number 1. -/
def span (n : Concrete) : Span :=
  { start := n.start + 1, stop := n.stop + 1 }

end Concrete

/-! ## Children -/

/-- Adds a child under a field: a second one makes a list of both, and statements of a case always
    are a list. -/
def addChild (field : Field) (child : Branch) : List (Field × Branch) → List (Field × Branch)
  | [] => [(field, if field = .consequent then .list [child] else child)]
  | (f, b) :: entries =>
    if f = field then
      match b with
      | .list items => (f, .list (items ++ [child])) :: entries
      | b => (f, .list [b, child]) :: entries
    else (f, b) :: addChild field child entries

/-- Children, each with what became of it; of some nothing is left. -/
abbrev Lowered := List (Concrete × Option Branch)

/-- All children under the fields of `parent`. -/
def fieldsOf (parent : String) (children : Lowered) : List (Field × Branch) :=
  children.foldl (fun entries child =>
    match child.2 with
    | some b => addChild (fieldFor parent child.1.role) b entries
    | none => entries) []

/-- A member of a class with the decorators in front of it: it begins at the first one and holds
    all of them behind its own children. -/
def decorated (decorators : List (Span × Branch)) (member : Branch) : Branch :=
  match member with
  | .node kind span fields =>
    let start := match decorators.head? with
      | some first => min span.start first.1.start
      | none => span.start
    .node kind { span with start := start }
      (fields ++ decorators.map fun decorator => (.children, decorator.2))
  | wrapper => wrapper

/-- The members of a class. `decorators` are those that wait for the next member, `entries` what
    was found so far. -/
def classMembers (decorators : List (Span × Branch)) (entries : List (Field × Branch)) :
    Lowered → List (Field × Branch)
  | [] =>
    decorators.foldl (fun entries decorator => addChild .children decorator.2 entries) entries
  | (_, none) :: rest => classMembers decorators entries rest
  | (n, some (.node kind span fields)) :: rest =>
    let member := Branch.node kind span fields
    if n.kind = "decorator" then classMembers (decorators ++ [(span, member)]) entries rest
    else classMembers [] (addChild .children (decorated decorators member) entries) rest
  | (_, some wrapper) :: rest =>
    classMembers decorators (addChild .children wrapper entries) rest

/-- What became of the first child with a role. -/
def inRole? (role : String) (children : Lowered) : Option Branch :=
  (children.find? fun child => child.1.role == some role).bind (·.2)

/-- The place where a branch ends; wrappers have none. -/
def stopOf : Branch → Nat
  | .node _ span _ => span.stop
  | .group _ | .list _ => 0

/-- The entries for the name of a declared variable and its type. A plain name takes the type as its
    child and grows over it. -/
def boundName (name type? : Option Branch) : List (Field × Branch) :=
  match name with
  | some (.node (.identifier x) span fields) =>
    match type? with
    | some type =>
      [(.id, .node (.identifier x) { span with stop := max span.stop (stopOf type) }
        (fields ++ [(.typeAscription, type)]))]
    | none => [(.id, .node (.identifier x) span fields)]
  | some pattern =>
    match type? with
    | some type => [(.id, pattern), (.children, type)]
    | none => [(.id, pattern)]
  | none => []

/-- The children of a declared variable. -/
def declaratorFields (children : Lowered) : List (Field × Branch) :=
  boundName (inRole? "name" children) (inRole? "type" children) ++
    match inRole? "value" children with
    | some value => [(.init, value)]
    | none => []

/-! ## Nodes -/

namespace Concrete

/-- What a construct becomes, given what became of its children. -/
def assembled (parent : String) (n : Concrete) (children : Lowered) : Branch :=
  match n.kind with
  | "class_body" => .group (classMembers [] [] children)
  | "switch_body" | "formal_parameters" | "arguments" => .group (fieldsOf n.kind children)
  | "variable_declarator" => .node .variableDeclarator n.span (declaratorFields children)
  | kind => .node (n.kindIn parent) n.span (fieldsOf kind children)

mutual

/-- What becomes of a node that stands in `parent`. -/
def branch? (parent : String) : Concrete → Option Branch
  | ⟨kind, standing, role, start, stop, text, children⟩ =>
    let n : Concrete := ⟨kind, standing, role, start, stop, text, children⟩
    match standing with
    | .error => some (Branch.leaf .invalid n.span)
    | .missing => some (Branch.leaf .invalid n.span)
    | .punctuation => none
    | .named =>
      if kind = "comment" then none else some (n.assembled parent (lowered kind children))

/-- What becomes of the children of `parent`. -/
def lowered (parent : String) : List Concrete → Lowered
  | [] => []
  | n :: rest => (n, branch? parent n) :: lowered parent rest

end

/-- The tree of a whole text. -/
def tree? (n : Concrete) : Option Tree :=
  match n.branch? "" with
  | some (.node kind span fields) => some { kind := kind, span := span, fields := fields }
  | _ => none

end Concrete

end Stepflow
