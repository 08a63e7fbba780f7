import Stepflow.TypeScript.Grammar.Expressions

/-!
# Grammar of statements

Statements, declarations and the members of classes. Blocks, functions and classes take an implied
semicolon behind them, and with it a comment at the end of their last line.
-/

namespace Stepflow.TypeScript

open Pattern

/-! ## Variables -/

/-- Closing brackets that nothing has opened, between the name of a variable and its type or value.
    They are faults, and the variable goes on behind them. -/
def strayClosers : Syn :=
  lead [')', ']']
    (all [deny (implied { operator := false, body := false }),
      some1 (either (stray (exactly? [')'])) (stray (exactly? [']']))),
      peek (either (tok ":") (oper "="))])

def declarator : Syn :=
  node "variable_declarator"
    (all [role "name"
        (any [lead ['['] arrayPattern, lead ['{'] objectPattern, anyName "identifier"]),
      opt strayClosers,
      either (both (oper "!") (role "type" typeAscription))
        (both (opt (role "type" typeAscription)) (opt (initializer .free)))])

/-- A declaration of variables. -/
def variableDeclaration : Syn :=
  either
    (node "lexical_declaration"
      (all [either (kw "let") (kw "const"), commaList declarator, closing]))
    (node "variable_declaration" (all [kw "var", commaList declarator, closing]))

/-! ## Functions and classes -/

def functionDeclaration : Syn :=
  any
    [node "function_declaration"
      (all [opt (kw "async"), kw "function", role "name" (anyName "identifier"), signature, body,
        maybeImplied]),
      node "generator_function_declaration"
        (all [opt (kw "async"), kw "function", oper "*", role "name" (anyName "identifier"),
          signature, body, maybeImplied]),
      node "function_signature"
        (all [opt (kw "async"), kw "function", role "name" (anyName "identifier"), signature,
          bodiless])]

def classDeclaration : Syn :=
  either
    (node "class_declaration"
      (all [decorators, kw "class", classRest className, maybeImplied]))
    (node "abstract_class_declaration"
      (all [decorators, kw "abstract", kw "class", classRest className]))

def abstractMethod : Syn :=
  node "abstract_method_signature"
    (all [opt accessibility, modifier "abstract", opt overriding,
      opt (any [modifier "get", modifier "set", oper "*"]), role "name" propertyName,
      opt (tok "?"), signature])

def fieldDefinition : Syn :=
  node "public_field_definition"
    (all [decorators, opt (modifier "declare"), opt accessibility, opt (modifier "declare"),
      opt (modifier "static"), opt overriding, opt (modifier "readonly"),
      opt (modifier "abstract"), opt (modifier "readonly"), opt (modifier "accessor"),
      role "name" propertyName, opt (either (tok "?") (oper "!")), opt typeAscription,
      opt (initializer .free)])

def staticBlock : Syn :=
  node "class_static_block" (both (kw "static") body)

def classMember : Syn :=
  any
    [tok ";", staticBlock, all [decorators, methodDefinition, opt closing],
      both methodSignature (either bodiless (tok ",")),
      both (any [abstractMethod, indexSignature, fieldDefinition]) (either semicolon (tok ","))]

def classBody : Syn :=
  node "class_body" (all [openBrace, many classMember, closeBrace])

/-! ## Modules -/

/-- Names with points between them. -/
def nestedName : Syn :=
  chain (anyName "identifier")
    (either
      (grow "member_expression" none
        (all [tok ".", anyName "property_identifier", peek (tok ".")]))
      (grow "nested_identifier" none (both (tok ".") (anyName "property_identifier"))))

def moduleRest : Syn :=
  both (role "name" (either stringNode nestedName)) (opt body)

def internalModule : Syn :=
  node "internal_module" (both (kw "namespace") moduleRest)

def fromClause : Syn :=
  both (kw "from") (role "source" stringNode)

/-- A name in a list of imports or exports. -/
def listedName : Syn :=
  either (anyName "identifier") stringNode

/-- A word that may precede a listed name and is not itself the name. -/
def typeMark : Syn :=
  all [either (kw "type") (kw "typeof"), deny (either (tok ",") closeBrace), deny (kw "as")]

def importSpecifier : Syn :=
  node "import_specifier"
    (all [opt typeMark, listedName, opt (both (kw "as") (anyName "identifier"))])

def namespaceImport : Syn :=
  node "namespace_import" (all [oper "*", kw "as", anyName "identifier"])

def namedImports : Syn :=
  node "named_imports" (all [openBrace, opt (commaListClosed importSpecifier), closeBrace])

def importClause : Syn :=
  node "import_clause"
    (any [namespaceImport, namedImports,
      both (anyName "identifier")
        (opt (both (tok ",") (either namespaceImport namedImports)))])

def importAttribute : Syn :=
  node "import_attribute" (both (either (kw "with") (kw "assert")) (rule .object))

def importStatement : Syn :=
  node "import_statement"
    (all [kw "import",
      any
        [all [either (kw "type") (kw "typeof"), importClause, fromClause],
          both importClause fromClause,
          node "import_require_clause"
            (all [opt (kw "type"), anyName "identifier", oper "=", kw "require", tok "(",
              role "source" stringNode, tok ")"]),
          role "source" stringNode],
      opt importAttribute, closing])

def importAlias : Syn :=
  node "import_alias"
    (all [kw "import", anyName "identifier", oper "=", nestedName, closing])

def exportClause : Syn :=
  node "export_clause"
    (all [openBrace,
      opt (commaListClosed
        (node "export_specifier"
          (all [opt typeMark, listedName, opt (both (kw "as") listedName)]))),
      closeBrace])

def typeAlias : Syn :=
  node "type_alias_declaration"
    (all [kw "type", anyName "type_identifier", opt (rule .typeParameters), oper "=", fullType,
      closing])

def interfaceDeclaration : Syn :=
  node "interface_declaration"
    (all [kw "interface", anyName "type_identifier", opt (rule .typeParameters),
      opt (node "extends_type_clause" (both (kw "extends") (commaList typeReference))),
      role "body" (rule (.objectType "interface_body"))])

def enumDeclaration : Syn :=
  let member :=
    either (node "enum_assignment" (both propertyName (initializer .inside))) propertyName
  node "enum_declaration"
    (all [opt (kw "const"), kw "enum", anyName "identifier",
      role "body"
        (node "enum_body" (all [openBrace, opt (commaListClosed member), closeBrace]))])

/-- The declarations that a file can export or mark as ambient. -/
def declaration : Syn :=
  any [functionDeclaration, classDeclaration, enumDeclaration, variableDeclaration, typeAlias,
    interfaceDeclaration, internalModule, node "module" (both (kw "module") moduleRest),
    importAlias]

def ambient : Syn :=
  node "ambient_declaration"
    (both (kw "declare")
      (any [declaration, both (kw "global") (rule .block),
        all [kw "module", tok ".", anyName "property_identifier", tok ":", fullType, closing]]))

def exportStatement : Syn :=
  node "export_statement"
    (all [decorators, kw "export",
      any
        [all [oper "*", fromClause, closing],
          all [node "namespace_export" (all [oper "*", kw "as", listedName]), fromClause,
            closing],
          all [opt (both (kw "type") (peek openBrace)), exportClause, opt fromClause, closing],
          both (kw "default") (any [declaration, ambient, both expression semicolon]),
          all [oper "=", expression, semicolon],
          all [kw "as", kw "namespace", anyName "identifier", closing],
          declaration, ambient]])

/-! ## Statements -/

def ifStatement : Syn :=
  node "if_statement"
    (all [kw "if", parenthesized, rule .statement,
      opt (node "else_clause" (both (kw "else") (rule .statement)))])

def emptyStatement : Syn :=
  leaf "empty_statement" false (exactly? [';'])

def forStatement : Syn :=
  let inner := rule (.expressions .inside)
  node "for_statement"
    (all [kw "for", tok "(",
      any [variableDeclaration, emptyStatement, both inner (tok ";")],
      either emptyStatement (both inner (tok ";")), opt inner, tok ")",
      role "body" (rule .statement)])

/-- A loop over the members or the values of something. -/
def forInStatement : Syn :=
  let bound := any [lead ['['] arrayPattern, lead ['{'] objectPattern, anyName "identifier"]
  node "for_in_statement"
    (all [kw "for", opt (kw "await"), tok "(",
      any
        [all [kw "var", role "left" bound, opt (initializer .inside)],
          both (either (kw "let") (kw "const")) (role "left" bound),
          role "left" (rule .target)],
      either (kw "in") (kw "of"), role "right" (rule (.expressions .inside)), tok ")",
      role "body" (rule .statement)])

def doStatement : Syn :=
  node "do_statement"
    (all [kw "do", role "body" (rule .statement), kw "while", parenthesized, opt closing])

def switchStatement : Syn :=
  let statements := many (both (deny (token false (wordAmong? ["case", "default"])))
    (rule .statement))
  node "switch_statement"
    (all [kw "switch", parenthesized,
      role "body"
        (node "switch_body"
          (all [openBrace,
            many (either
              (node "switch_case"
                (all [kw "case",
                  role "value" (rule (.expressions { Setting.inside with arrowType := false })),
                  tok ":", statements]))
              (node "switch_default" (all [kw "default", tok ":", statements]))),
            closeBrace]))])

def tryStatement : Syn :=
  node "try_statement"
    (all [kw "try", body,
      opt (node "catch_clause"
        (all [kw "catch",
          opt (all [tok "(",
            any [lead ['['] arrayPattern, lead ['{'] objectPattern, anyName "identifier"],
            opt typeAscription, tok ")"]),
          body])),
      opt (node "finally_clause" (both (kw "finally") body))])

/-- A statement that leaves a loop or goes on with it, to a label if one is given. -/
def jump (kind word : String) : Syn :=
  node kind
    (both (kw word) (either closing (both (anyName "statement_identifier") closing)))

def returnStatement : Syn :=
  node "return_statement"
    (both (kw "return") (either closing (both (rule (.expressions .free)) semicolon)))

/-- The words that start a statement of their own form. -/
def statementWords : List String :=
  ["if", "for", "while", "do", "try", "switch", "with", "break", "continue", "debugger", "return",
    "throw", "var", "let", "const", "function", "async", "class", "abstract", "interface", "enum",
    "type", "namespace", "module", "declare", "import", "export"]

/-- The words of `statementWords` that can start an expression as well. -/
def plainWords : List String :=
  ["let", "function", "async", "class", "type", "namespace", "module", "declare", "import"]

/-- A module that is followed by the end of a statement counts as an expression. -/
def moduleStatement : Syn :=
  chain internalModule
    (both (held ["internal_module"]) (grow "expression_statement" none semicolon))

def wordStatement : Syn :=
  any
    [variableDeclaration, ifStatement, jump "break_statement" "break", returnStatement,
      functionDeclaration, switchStatement, either forInStatement forStatement,
      node "while_statement"
        (all [kw "while", parenthesized, role "body" (rule .statement)]),
      tryStatement,
      node "throw_statement" (all [kw "throw", rule (.expressions .free), semicolon]),
      classDeclaration, jump "continue_statement" "continue", doStatement, importStatement,
      exportStatement, typeAlias, interfaceDeclaration, enumDeclaration, moduleStatement, ambient,
      node "module" (both (kw "module") moduleRest),
      node "debugger_statement" (both (kw "debugger") closing),
      node "with_statement" (all [kw "with", parenthesized, role "body" (rule .statement)]),
      importAlias]

def labeledStatement : Syn :=
  node "labeled_statement"
    (all [anyName "statement_identifier", tok ":", role "body" (rule .statement)])

def expressionStatement : Syn :=
  node "expression_statement" (both (rule (.expressions .free)) semicolon)

/-- A statement that starts with no word of its own. -/
def plainStatement : Syn :=
  either (both (peek (both (token false word?) (tok ":"))) labeledStatement) expressionStatement

def block : Syn :=
  node "statement_block"
    (all [openBrace, many (rule .statement), closeBrace, maybeImplied])

def statement : Syn :=
  any
    [both (starts isWordChar)
      (any
        [both (deny (token false (wordAmong? statementWords))) plainStatement, wordStatement,
          both (peek (token false (wordAmong? plainWords))) plainStatement]),
      lead [';'] emptyStatement, lead ['{'] (rule .block),
      lead ['@'] (either classDeclaration exportStatement),
      both (deny (starts isWordChar)) expressionStatement]

end Stepflow.TypeScript
