import Stepflow.TypeScript.Grammar.Rule

/-!
# Grammar of markup

Elements with their attributes and children. A closing tag need not name what it closes.
-/

namespace Stepflow.TypeScript

open Pattern

/-- Code inside markup; it may be empty. -/
def markupCode : Syn :=
  node "jsx_expression"
    (all [openBrace,
      opt (either (node "spread_element" (both (tok "...") innerExpression))
        (rule (.expressions .inside))),
      closeBrace])

/-- A name, possibly with a name space in front. -/
def spacedName (kind : String) : Syn :=
  either
    (node "jsx_namespace_name"
      (all [leaf "identifier" false markupName?, tok ":", leaf "identifier" false markupName?]))
    (leaf kind false markupName?)

/-- The name of an element: a name, or the way to a member. -/
def tagName : Syn :=
  chain (spacedName "identifier")
    (both (held ["identifier", "member_expression"]) memberAccess)

/-- The quoted value of an attribute. -/
def attributeText (quote : Char) : Syn :=
  all [token false (exactly? [quote]),
    many (either (leaf "string_fragment" true (attributeRun? quote))
      (leaf "html_character_reference" true characterReference?)),
    token true (exactly? [quote])]

def tagAttribute : Syn :=
  either markupCode
    (node "jsx_attribute"
      (both (spacedName "property_identifier")
        (opt (both (tok "=")
          (any [spelled "string" (either (attributeText '"') (attributeText '\'')), markupCode,
            rule .markup])))))

/-- A tag from its name on. -/
def tagRest : Syn :=
  all [tagName, opt (rule .typeArguments), many tagAttribute]

def markup : Syn :=
  either
    (node "jsx_self_closing_element" (all [tok "<", tagRest, tok "/>"]))
    (node "jsx_element"
      (all [node "jsx_opening_element" (all [tok "<", opt tagRest, tok ">"]),
        many (any [leaf "jsx_text" true markupText?,
          leaf "html_character_reference" false characterReference?, lead ['{'] markupCode,
          lead ['<'] (rule .markup)]),
        node "jsx_closing_element" (all [tok "</", opt tagName, tok ">"])]))

end Stepflow.TypeScript
