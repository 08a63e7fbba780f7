import Stepflow.TypeScript.Grammar.Rule

/-!
# Grammar of types

Types, the parameters of functions and the members of object types.

The level of a type says which operators end it: 0 admits all, 1 excludes a condition, 2 a union as
well, 3 an intersection as well. Unions and intersections nest to the left.
-/

namespace Stepflow.TypeScript

open Pattern

/-! ## Parameters -/

/-- `...` and what takes the remaining values. -/
def restPattern : Syn :=
  node "rest_pattern" (both (tok "...") (rule .target))

/-- The name of a parameter with what may stand in front of it. -/
def parameterName : Syn :=
  all [decorators, opt accessibility, opt overriding, opt (modifier "readonly"),
    any [restPattern, thisNode, rule .target]]

/-- A parameter; a question mark makes it optional. -/
def parameter : Syn :=
  either
    (node "optional_parameter"
      (all [parameterName, tok "?", opt typeAscription, opt (initializer .inside)]))
    (node "required_parameter"
      (all [parameterName, opt typeAscription, opt (initializer .inside)]))

def parameters : Syn :=
  node "formal_parameters" (all [tok "(", opt (commaListClosed parameter), tok ")"])

def typeParameter : Syn :=
  node "type_parameter"
    (all [opt (both (kw "const") (peek startsName)), anyName "type_identifier",
      opt (node "constraint" (both (either (kw "extends") (tok ":")) fullType)),
      opt (node "default_type" (both (oper "=") fullType))])

def typeParameters : Syn :=
  node "type_parameters" (all [tok "<", commaListClosed typeParameter, tok ">"])

def typeArguments : Syn :=
  node "type_arguments" (all [tok "<", commaListClosed fullType, tok ">"])

/-! ## Names of types -/

/-- The names in front of the last one of a name with points. -/
def modulePath : Syn :=
  chain (both (anyName "identifier") (peek (tok ".")))
    (either
      (grow "member_expression" none
        (all [tok ".", anyName "property_identifier",
          peek (all [tok ".", anyName "identifier", tok "."])]))
      (grow "nested_identifier" none
        (all [tok ".", anyName "property_identifier", peek (tok ".")])))

def typeName : Syn :=
  either
    (node "nested_type_identifier"
      (all [modulePath, tok ".", anyName "type_identifier"]))
    (anyName "type_identifier")

/-- A name of a type with its arguments, if it has any. -/
def typeReference : Syn :=
  chain typeName
    (both (held ["type_identifier", "nested_type_identifier"])
      (grow "generic_type" none (rule .typeArguments)))

/-! ## Members of object types -/

def signModifiers : Syn :=
  all [opt accessibility, opt (modifier "static"), opt overriding, opt (modifier "readonly")]

def propertySignature : Syn :=
  node "property_signature"
    (all [signModifiers, role "name" propertyName, opt (tok "?"), opt typeAscription])

/-- The kind of a method: asynchronous, accessor or generator. -/
def methodKind : Syn :=
  all [opt (modifier "async"), opt (any [modifier "get", modifier "set", oper "*"])]

def methodSignature : Syn :=
  node "method_signature"
    (all [signModifiers, methodKind, role "name" propertyName, opt (tok "?"), signature])

def constructSignature : Syn :=
  node "construct_signature"
    (all [opt (modifier "abstract"), kw "new", opt (rule .typeParameters), rule .parameters,
      opt typeAscription])

def mappedClause : Syn :=
  node "mapped_type_clause"
    (all [anyName "type_identifier", kw "in", fullType, opt (both (kw "as") fullType)])

def indexSignature : Syn :=
  node "index_signature"
    (all [opt (both (opt (token false (oneOf? ["-", "+"]))) (kw "readonly")), tok "[",
      either mappedClause (all [anyName "identifier", tok ":", fullType]), tok "]",
      any [typeAscription, node "omitting_type_annotation" (both (tok "-?:") fullType),
        node "adding_type_annotation" (both (tok "+?:") fullType),
        node "opting_type_annotation" (both (tok "?:") fullType)]])

def typeMember : Syn :=
  any [constructSignature, indexSignature, methodSignature, node "call_signature" signature,
    propertySignature]

def objectType (kind : String) : Syn :=
  let separator := either (tok ",") closing
  node kind
    (all [openBrace, opt (either (tok ",") (tok ";")),
      opt (both typeMember (many (both separator typeMember))), opt separator, closeBrace])

/-! ## Types -/

def functionType : Syn :=
  node "function_type"
    (all [opt (rule .typeParameters), rule .parameters, oper "=>",
      any [asserts, typePredicate, fullType]])

def constructorType : Syn :=
  node "constructor_type"
    (all [opt (kw "abstract"), kw "new", opt (rule .typeParameters), rule .parameters, oper "=>",
      fullType])

def tupleMember : Syn :=
  any
    [node "required_parameter"
      (both (either (both (anyName "identifier") (peek (tok ":")))
          (both restPattern (peek (tok ":"))))
        typeAscription),
      node "optional_parameter" (all [anyName "identifier", tok "?", typeAscription]),
      node "rest_type" (both (tok "...") fullType),
      chain fullType (grow "optional_type" none (tok "?"))]

def tupleType : Syn :=
  node "tuple_type" (all [tok "[", opt (commaListClosed tupleMember), tok "]"])

def literalType : Syn :=
  node "literal_type"
    (any [node "unary_expression" (both (sign (oneOf? ["-", "+"])) numberNode), numberNode,
      stringNode, wordNode "true", wordNode "false", wordNode "null", wordNode "undefined"])

def templateType : Syn :=
  node "template_literal_type"
    (all [tok "`",
      many (either (leaf "string_fragment" true templateRun?)
        (node "template_type" (all [glue "$\x7b", fullType, closeBrace]))),
      glue "`"])

/-- The words that are types by themselves. -/
def predefinedTypes : List String :=
  ["any", "number", "boolean", "string", "symbol", "void", "unknown", "never", "object"]

def predefinedType : Syn :=
  either (leaf "predefined_type" false (wordAmong? predefinedTypes))
    (node "predefined_type" (both (kw "unique") (kw "symbol")))

/-- The type of a value that is named. -/
def typeQuery : Syn :=
  node "type_query"
    (both (kw "typeof")
      (chain (any [thisNode, moduleCallee, anyName "identifier"])
        (any [memberAccess,
          grow "subscript_expression" none
            (all [tok "[", any [stringNode, numberNode, predefinedType], tok "]"]),
          grow "call_expression" none (rule .arguments),
          grow "instantiation_expression" none (rule .typeArguments)])))

/-- A type of a module that is called for. -/
def moduleType : Syn :=
  chain moduleCallee
    (any [memberAccess, grow "call_expression" none (rule .arguments),
      grow "generic_type" none (rule .typeArguments)])

/-- The words that start a type of their own form. -/
def typeWords : List String :=
  ["new", "abstract", "readonly", "infer", "keyof", "typeof", "import", "unique", "this", "true",
    "false", "null", "undefined"] ++ predefinedTypes

/-- A type that starts with one of `typeWords`. -/
def wordType : Syn :=
  any
    [constructorType, node "readonly_type" (both (kw "readonly") fullType),
      node "infer_type"
        (all [kw "infer", anyName "type_identifier",
          opt (both (kw "extends") (rule (.typ 1)))]),
      node "index_type_query" (both (kw "keyof") (rule (.typ 3))), typeQuery, moduleType,
      predefinedType, leaf "this_type" false (wordAmong? ["this"]), literalType]

/-- A type up to its first operator. -/
def typeOperand (level : Nat) : Syn :=
  any
    [both (starts isWordChar)
      (either (both (deny (token false (wordAmong? typeWords))) typeReference)
        (either wordType typeReference)),
      lead ['|'] (if level ≤ 1 then node "union_type" (both (tok "|") (rule (.typ 2))) else never),
      lead ['&']
        (if level ≤ 2 then node "intersection_type" (both (tok "&") (rule (.typ 3))) else never),
      lead ['(', '<'] functionType,
      lead ['('] (node "parenthesized_type" (all [tok "(", fullType, tok ")"])),
      lead ['{'] (rule (.objectType "object_type")), lead ['['] tupleType, lead ['`'] templateType,
      literalType, typeReference]

/-- What can follow a type and continue it. -/
def typeSuffix (level : Nat) : Syn :=
  any
    [all [lead ['['] nothing, deny (implied { operator := false, body := false }),
        either (grow "array_type" none (both (tok "[") (tok "]")))
          (grow "lookup_type" none (all [tok "[", fullType, tok "]"]))],
      if level ≤ 1 then grow "union_type" none (both (oper "|") (rule (.typ 2))) else never,
      if level ≤ 2 then grow "intersection_type" none (both (oper "&") (rule (.typ 3))) else never,
      if level ≤ 0 then
        grow "conditional_type" (some "left")
          (all [kw "extends", role "right" (rule (.typ 1)), tok "?", fullType, tok ":", fullType])
      else never]

def typ (level : Nat) : Syn :=
  chain (rule (.typeOperand level)) (typeSuffix level)

end Stepflow.TypeScript
