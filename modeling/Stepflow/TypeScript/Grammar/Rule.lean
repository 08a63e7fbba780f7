import Stepflow.TypeScript.Pattern

/-!
# Rules of the grammar

The names of the rules that refer to each other, and the parts of the grammar that all of them use:
names, literals, decorators and the ends of statements.

* `Setting`: what an expression may look like at its place.
* `Rule`: the recursive rules.
* `Dialect`: whether `<` starts markup or a type in front of an expression.
-/

namespace Stepflow.TypeScript

open Pattern

/-- The two dialects: with markup, or with type assertions in angle brackets. -/
inductive Dialect where
  | markup
  | plain
  deriving DecidableEq, Repr

/-- What an expression may look like at its place. Operators below `level` end it. `bracketed` says
    that a closing bracket follows, so that no semicolon is implied. `arrowType` admits the result
    type of an arrow function, and `casts` the endings `as`, `satisfies` and `!`. -/
structure Setting where
  level : Nat
  bracketed : Bool
  arrowType : Bool
  casts : Bool
  deriving DecidableEq, Repr

namespace Setting

/-- An expression that ends with its statement. -/
def free : Setting :=
  { level := 1, bracketed := false, arrowType := true, casts := true }

/-- An expression between brackets. -/
def inside : Setting :=
  { free with bracketed := true }

/-- The operand of an operator of the level below. -/
def operand (s : Setting) (level : Nat) : Setting :=
  { s with level := level, casts := false }

end Setting

/-- The rules that refer to each other. -/
inductive Rule where
  | statement
  | block
  | expression (s : Setting)
  | operand (s : Setting)
  | suffix (s : Setting)
  | expressions (s : Setting)
  | arguments
  | target
  | template
  | object
  | array
  | typ (level : Nat)
  | typeOperand (level : Nat)
  | typeArguments
  | typeParameters
  | parameters
  | objectType (kind : String)
  | classBody
  | markup
  deriving DecidableEq, Repr

/-- A pattern of this grammar. -/
abbrev Syn := Pattern Rule

/-- An expression up to the end of its statement. -/
def expression : Syn :=
  rule (.expression .free)

/-- An expression between brackets. -/
def innerExpression : Syn :=
  rule (.expression .inside)

/-- A type. -/
def fullType : Syn :=
  rule (.typ 0)

def openBrace : Syn :=
  tok "\x7b"

def closeBrace : Syn :=
  tok "\x7d"

/-! ## Names and literals -/

/-- A word, as a node of the given kind. -/
def anyName (kind : String) : Syn :=
  leaf kind false word?

/-- One of the given words, as a node of its own kind. -/
def wordNode (text : String) : Syn :=
  leaf text false (wordAmong? [text])

def numberNode : Syn :=
  leaf "number" false number?

/-- A string: its quotes with stretches and escapes between them. -/
def quoted (quote : Char) : Syn :=
  all [token false (exactly? [quote]),
    many (either (leaf "string_fragment" true (stringRun? quote))
      (leaf "escape_sequence" true escape?)),
    token true (exactly? [quote])]

def stringNode : Syn :=
  spelled "string" (either (quoted '"') (quoted '\''))

/-- A template: stretches, escapes and substitutions between backquotes. -/
def template : Syn :=
  node "template_string"
    (all [tok "`",
      many (any [leaf "string_fragment" true templateRun?, leaf "escape_sequence" true escape?,
        node "template_substitution"
          (all [glue "$\x7b", rule (.expressions .inside), closeBrace])]),
      glue "`"])

def regex : Syn :=
  node "regex"
    (all [tok "/", leaf "regex_pattern" true regexBody?, glue "/",
      opt (leaf "regex_flags" true regexFlags?)])

/-- The name of a member: a word, a private name, a string, a number, an expression in brackets. -/
def propertyName : Syn :=
  any [anyName "property_identifier", leaf "private_property_identifier" false privateName?,
    stringNode, numberNode,
    node "computed_property_name" (all [tok "[", innerExpression, tok "]"])]

/-- The next token can be the name of a member. -/
def startsName : Syn :=
  starts fun c => isWordChar c || ['"', '\'', '[', '#', '*', '\\'].contains c

/-- A modifier: the word counts as one only if the name of a member can follow. -/
def modifier (text : String) : Syn :=
  both (kw text) (peek startsName)

def accessibility : Syn :=
  both (leaf "accessibility_modifier" false (wordAmong? ["public", "private", "protected"]))
    (peek startsName)

def overriding : Syn :=
  both (leaf "override_modifier" false (wordAmong? ["override"])) (peek startsName)

/-! ## Ends of statements -/

/-- A semicolon behind an expression, written or implied. -/
def semicolon : Syn :=
  either (implied { operator := true, body := false }) (tok ";")

/-- A semicolon where no operator can follow. -/
def closing : Syn :=
  either (implied { operator := false, body := false }) (tok ";")

/-- The semicolon of a function without a body. -/
def bodiless : Syn :=
  either (implied { operator := false, body := true }) (tok ";")

/-- An implied semicolon, if there is one. -/
def maybeImplied : Syn :=
  opt (implied { operator := false, body := false })

/-- No semicolon is implied here. -/
def sameStatement : Syn :=
  deny (implied { operator := true, body := false })

/-! ## Parts shared by expressions, types and statements -/

def typeAscription : Syn :=
  node "type_annotation" (both (tok ":") fullType)

def thisNode : Syn :=
  wordNode "this"

/-- `x is T`. -/
def typePredicate : Syn :=
  node "type_predicate" (all [either thisNode (anyName "identifier"), kw "is", fullType])

/-- `asserts x` or `asserts x is T`. -/
def asserts : Syn :=
  node "asserts"
    (all [kw "asserts", any [typePredicate, thisNode, anyName "identifier"]])

/-- The type of a result, which may be a statement about an argument. -/
def resultType : Syn :=
  any [node "asserts_annotation" (both (tok ":") asserts),
    node "type_predicate_annotation" (both (tok ":") typePredicate), typeAscription]

/-- Type parameters, parameters and the type of the result. -/
def signature : Syn :=
  all [opt (rule .typeParameters), rule .parameters, opt resultType]

/-- A value behind `=`. -/
def initializer (s : Setting) : Syn :=
  both (oper "=") (role "value" (rule (.expression s)))

def body : Syn :=
  role "body" (rule .block)

/-- An access to a member by name. -/
def memberAccess : Syn :=
  grow "member_expression" none
    (both (tok ".") (anyName "property_identifier"))

/-- The word `import` where a module is called for. -/
def moduleCallee : Syn :=
  both (wordNode "import") (peek (tok "("))

/-- `@` and a name, an access to a member, a call, or an expression in parentheses. -/
def decorator : Syn :=
  node "decorator"
    (both (tok "@")
      (either
        (chain
          (chain (anyName "identifier") memberAccess)
          (grow "call_expression" none
            (both (opt (rule .typeArguments)) (rule .arguments))))
        (node "parenthesized_expression"
          (all [tok "(", rule (.expressions .inside), tok ")"]))))

def decorators : Syn :=
  many (role "decorator" decorator)

end Stepflow.TypeScript
