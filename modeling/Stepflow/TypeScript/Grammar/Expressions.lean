import Stepflow.TypeScript.Grammar.Types

/-!
# Grammar of expressions

An expression is an operand that grows by what follows it. Operators have levels; the operand on the
right of a binary operator admits only tighter ones. An assignment may start at any operand that can
be assigned to.
-/

namespace Stepflow.TypeScript

open Pattern

/-! ## Levels of operators -/

/-- The left-associative binary operators, by level. -/
def binaryLevels : List (Nat × List String) :=
  [(2, ["??"]), (3, ["||"]), (4, ["&&"]), (5, ["|"]), (6, ["^"]), (7, ["&"]),
    (8, ["==", "!=", "===", "!=="]), (9, ["<", "<=", ">", ">="]), (10, ["<<", ">>", ">>>"]),
    (11, ["+", "-"]), (12, ["*", "/", "%"])]

/-- The level of the conditional operator, of the casts and of `??`. -/
def conditionLevel : Nat := 2

def relationLevel : Nat := 9

def powerLevel : Nat := 13

def unaryLevel : Nat := 14

def updateLevel : Nat := 15

def memberLevel : Nat := 16

/-- The operators that assign and compute. -/
def computedAssignments : List String :=
  ["+=", "-=", "*=", "/=", "%=", "^=", "&=", "|=", ">>=", ">>>=", "<<=", "**=", "&&=", "||=", "??="]

/-- The kinds of expressions that can be assigned to. -/
def assignable : List String :=
  ["identifier", "undefined", "member_expression", "subscript_expression", "non_null_expression",
    "parenthesized_expression", "array_pattern", "object_pattern"]

/-! ## Patterns of assignments -/

/-- A value that is taken apart element by element. -/
def arrayPattern : Syn :=
  node "array_pattern"
    (all [tok "[",
      commaPlaces (either restPattern
        (chain (rule .target)
          (grow "assignment_pattern" (some "left")
            (both (oper "=") (role "right" innerExpression))))),
      tok "]"])

/-- A value that is taken apart member by member. -/
def objectPattern : Syn :=
  node "object_pattern"
    (all [openBrace,
      commaPlaces
        (any
          [node "pair_pattern"
            (all [propertyName, tok ":",
              chain (rule .target)
                (grow "assignment_pattern" (some "left")
                  (both (oper "=") (role "right" innerExpression)))]),
            restPattern,
            chain (anyName "shorthand_property_identifier_pattern")
              (grow "object_assignment_pattern" (some "left")
                (both (oper "=") (role "right" innerExpression)))]),
      closeBrace])

/-- What can be assigned to. -/
def target : Syn :=
  any
    [lead ['['] arrayPattern, lead ['{'] objectPattern,
      chain (either thisNode (anyName "identifier"))
        (any [memberAccess,
          grow "subscript_expression" none
            (all [tok "[", rule (.expressions .inside), tok "]"])])]

/-! ## Operands -/

def spread : Syn :=
  node "spread_element" (both (tok "...") innerExpression)

def arguments : Syn :=
  node "arguments" (all [tok "(", commaPlaces (either spread innerExpression), tok ")"])

def array : Syn :=
  node "array" (all [tok "[", commaPlaces (either spread innerExpression), tok "]"])

/-- A method with its body; modifiers stand in front of the name. -/
def methodDefinition : Syn :=
  node "method_definition"
    (all [signModifiers, methodKind, role "name" propertyName, opt (tok "?"), signature, body])

def objectMember : Syn :=
  any
    [node "pair" (all [propertyName, tok ":", role "value" innerExpression]), spread,
      methodDefinition, anyName "shorthand_property_identifier"]

def object : Syn :=
  node "object" (all [openBrace, commaPlaces objectMember, closeBrace])

def parenthesized : Syn :=
  node "parenthesized_expression"
    (all [tok "(", rule (.expressions .inside), opt typeAscription, tok ")"])

/-- The body of an arrow function: a block, or an expression that reaches as far as it can. -/
def arrowBody (s : Setting) : Syn :=
  both (oper "=>")
    (role "body"
      (either (rule .block) (rule (.expression { s with level := 1, casts := true }))))

/-- An arrow function whose parameters stand in parentheses. -/
def arrow (s : Setting) : Syn :=
  node "arrow_function"
    (all [opt (kw "async"), opt (rule .typeParameters), rule .parameters,
      if s.arrowType then opt resultType else nothing, arrowBody s])

/-- An arrow function with a bare parameter. -/
def bareArrow (s : Setting) : Syn :=
  node "arrow_function"
    (all [opt (both (kw "async") (peek (starts isWordChar))), anyName "identifier", arrowBody s])

/-- What starts with a parenthesis. Parentheses that an arrow follows are parameters; those that a
    colon follows are if an arrow function with a result type can be read. -/
def opening (s : Setting) : Syn :=
  any
    [both parenthesized
      (deny (if s.arrowType then either (oper "=>") (tok ":") else oper "=>")),
      arrow s, parenthesized]

def functionExpression : Syn :=
  either
    (node "function_expression"
      (all [opt (kw "async"), kw "function", opt (anyName "identifier"), signature, body]))
    (node "generator_function"
      (all [opt (kw "async"), kw "function", oper "*", opt (anyName "identifier"), signature,
        body]))

def heritage : Syn :=
  let extended :=
    node "extends_clause"
      (both (kw "extends")
        (commaList
          (both (role "value" (rule (.expression (Setting.inside.operand memberLevel))))
            (opt (rule .typeArguments)))))
  let implemented := node "implements_clause" (both (kw "implements") (commaList fullType))
  node "class_heritage" (either (both extended (opt implemented)) implemented)

/-- A class from its name on. -/
def classRest (name : Syn) : Syn :=
  all [name, opt (rule .typeParameters), opt heritage, role "body" (rule .classBody)]

def className : Syn :=
  leaf "type_identifier" false (wordExcept? ["extends", "implements"])

def classExpression : Syn :=
  node "class" (all [decorators, kw "class", classRest (opt className)])

/-- `new` with a class that is named or computed without a call. -/
def construction : Syn :=
  node "new_expression"
    (all [kw "new",
      chain (rule (.operand (Setting.inside.operand memberLevel)))
        (any [memberAccess,
          grow "subscript_expression" none
            (all [tok "[", rule (.expressions .inside), tok "]"])]),
      opt (rule .typeArguments), opt (rule .arguments)])

def metaProperty : Syn :=
  node "meta_property"
    (either (all [kw "new", tok ".", kw "target"]) (all [kw "import", tok ".", kw "meta"]))

def unary (s : Setting) : Syn :=
  node "unary_expression"
    (both (either (sign (oneOf? ["!", "~", "-", "+"]))
        (sign (wordAmong? ["typeof", "void", "delete"])))
      (rule (.expression (s.operand unaryLevel))))

def update (s : Setting) : Syn :=
  node "update_expression"
    (both (sign (oneOf? ["++", "--"])) (rule (.expression (s.operand updateLevel))))

def await (s : Setting) : Syn :=
  node "await_expression"
    (both (kw "await") (rule (.expression { s with level := unaryLevel, casts := true })))

def yield (s : Setting) : Syn :=
  let value := rule (.expression { s with level := 1, casts := true })
  node "yield_expression"
    (both (kw "yield")
      (opt (both (if s.bracketed then nothing else sameStatement)
        (either (both (oper "*") value) value))))

/-- The words that start an operand of their own form. -/
def operandWords : List String :=
  ["function", "class", "async", "new", "import", "typeof", "void", "delete", "await", "yield",
    "this", "super", "null", "true", "false", "undefined"]

/-- The words of `operandWords` that can be names as well. -/
def softWords : List String :=
  ["async", "new"]

/-- An operand that starts with one of `operandWords`. -/
def wordOperand (s : Setting) : Syn :=
  any
    [wordNode "this", wordNode "super", wordNode "null", wordNode "true", wordNode "false",
      wordNode "undefined", functionExpression, classExpression, metaProperty, construction,
      moduleCallee, await s, yield s, unary s,
      both (peek (kw "async")) (any [bareArrow s, arrow s]),
      leaf "identifier" false (wordAmong? softWords)]

/-- What starts with an angle bracket: a generic arrow function, markup or a type assertion. -/
def angled (d : Dialect) (s : Setting) : Syn :=
  either (arrow s)
    (match d with
      | .markup => rule .markup
      | .plain =>
        node "type_assertion"
          (both (rule .typeArguments) (rule (.expression (s.operand unaryLevel)))))

/-- The literal, or the pattern of an assignment if that is what the text goes on with. -/
def literalOrPattern (literal pattern : Syn) : Syn :=
  either (both literal (deny (oper "="))) (both pattern (peek (oper "=")))

/-- An expression up to its first operator. -/
def operand (d : Dialect) (s : Setting) : Syn :=
  any
    [both (starts fun c => isWordChar c && !c.isDigit || c == '\\')
      (either
        (both (deny (token false (wordAmong? operandWords)))
          (either (both (peek (both (token false word?) (oper "=>"))) (bareArrow s))
            (anyName "identifier")))
        (wordOperand s)),
      lead ['('] (opening s), numberNode, lead ['"', '\''] stringNode, lead ['`'] (rule .template),
      lead ['{'] (literalOrPattern (rule .object) objectPattern),
      lead ['['] (literalOrPattern (rule .array) arrayPattern),
      lead ['+', '-', '!', '~'] (either (update s) (unary s)), lead ['/'] regex,
      lead ['<'] (angled d s),
      lead ['#']
        (both (leaf "private_property_identifier" false privateName?) (peek (kw "in"))),
      lead ['@'] classExpression]

/-! ## Growth -/

def optionalChain : Syn :=
  both (deny (token false questionMark?)) (leaf "optional_chain" false (oneOf? ["?."]))

def memberName : Syn :=
  either (anyName "property_identifier") (leaf "private_property_identifier" false privateName?)

/-- The operators that bind more tightly than all others: access, call and template. -/
def access : Syn :=
  any
    [lead ['.'] (grow "member_expression" none (both (oper ".") memberName)),
      lead ['(']
        (grow "call_expression" none (rule .arguments)),
      lead ['[']
        (grow "subscript_expression" none
          (all [tok "[", rule (.expressions .inside), tok "]"])),
      lead ['?']
        (any
          [grow "member_expression" none (both optionalChain memberName),
            grow "subscript_expression" none
              (all [optionalChain, tok "[", rule (.expressions .inside), tok "]"]),
            grow "call_expression" none
              (all [deny (token false questionMark?), oper "?.", opt (rule .typeArguments),
                rule .arguments])]),
      lead ['<']
        (grow "call_expression" none
          (both (rule .typeArguments) (either (rule .arguments) (rule .template)))),
      lead ['`'] (grow "call_expression" none (rule .template))]

/-- A binary operator with its right operand. -/
def binary (s : Setting) (level : Nat) (operator : Scan) (right : Nat) : Syn :=
  if s.level ≤ level then
    grow "binary_expression" (some "left")
      (both (sign operator) (role "right" (rule (.expression (s.operand right)))))
  else never

def binaries (s : Setting) : Syn :=
  any (binaryLevels.map (fun entry => binary s entry.1 (oneOf? entry.2) (entry.1 + 1)) ++
    [binary s powerLevel (oneOf? ["**"]) powerLevel])

/-- An assignment to what has been read. -/
def assignment (s : Setting) : Syn :=
  let value := role "right" (rule (.expression { s with level := 1, casts := true }))
  both (held assignable)
    (either
      (grow "assignment_expression" (some "left") (both (oper "=") value))
      (grow "augmented_assignment_expression" (some "left")
        (both (sign (oneOf? computedAssignments)) value)))

/-- A conditional expression with what has been read as its condition. Between the question mark
    and the colon an arrow function has no result type, unless there is no other way to read it. -/
def conditional (s : Setting) : Syn :=
  let last := rule (.expression { s with level := conditionLevel, casts := true })
  let between (arrowType : Bool) : Syn :=
    grow "ternary_expression" none
      (all [token false questionMark?,
        rule (.expression { Setting.inside with arrowType := arrowType }), tok ":", last])
  if s.level ≤ conditionLevel then either (between false) (between true) else never

/-- A change of the type that has been read. -/
def cast (s : Setting) : Syn :=
  let typed (kind word : String) : Syn :=
    grow kind none (both (kw word) (either (kw "const") fullType))
  if s.casts then
    any [grow "non_null_expression" none (oper "!"), typed "as_expression" "as",
      typed "satisfies_expression" "satisfies"]
  else never

/-- Type arguments behind an expression that is not called. -/
def instantiation : Syn :=
  grow "instantiation_expression" none
    (both (rule .typeArguments)
      (deny (starts fun c => isWordChar c || ['"', '\'', '(', '`', '{', '['].contains c)))

/-- What can follow an expression and continue it. -/
def suffix (s : Setting) : Syn :=
  let more :=
    any
      [both (starts isWordChar)
        (any [if s.level ≤ relationLevel then
            grow "binary_expression" (some "left")
              (both (sign (wordAmong? ["instanceof", "in"]))
                (role "right" (rule (.expression (s.operand (relationLevel + 1))))))
          else never, cast s]),
        access, lead ['='] (assignment s),
        both (starts fun c => ['+', '-', '*', '/', '%', '^', '&', '|', '<', '>', '?'].contains c)
          (any [if s.level ≤ updateLevel then
              grow "update_expression" none (sign (oneOf? ["++", "--"])) else never,
            assignment s, lead ['<'] instantiation, binaries s, conditional s]),
        lead ['=', '!'] (either (binaries s) (cast s))]
  if s.bracketed then more else both sameStatement more

/-- An expression: an operand that grows. -/
def expressionAt (s : Setting) : Syn :=
  chain (rule (.operand s)) (rule (.suffix s))

/-- An expression, or several with commas between them. -/
def expressionsAt (s : Setting) : Syn :=
  chain (rule (.expression s))
    (grow "sequence_expression" none (some1 (both (tok ",") (rule (.expression s)))))

end Stepflow.TypeScript
