import Stepflow.TypeScript.Grammar.Markup
import Stepflow.TypeScript.Grammar.Statements

/-!
# Reading TypeScript

* `grammar`: the pattern of every rule.
* `readProgram`: the concrete tree of a text. Statements are read one after the other; where no
  statement fits, the rest of the text is a fault.
-/

namespace Stepflow.TypeScript

open Stepflow.Text

/-- The pattern of a rule. -/
def grammar (d : Dialect) : Rule → Syn
  | .statement => statement
  | .block => block
  | .expression s => expressionAt s
  | .operand s => operand d s
  | .suffix s => suffix s
  | .expressions s => expressionsAt s
  | .arguments => arguments
  | .target => target
  | .template => template
  | .object => object
  | .array => array
  | .typ level => typ level
  | .typeOperand level => typeOperand level
  | .typeArguments => typeArguments
  | .typeParameters => typeParameters
  | .parameters => parameters
  | .objectType kind => objectType kind
  | .classBody => classBody
  | .markup => markup

/-- A bound on the nesting of patterns in a text: between two tokens no more patterns are entered
    than there are in a chain through all rules. -/
def depthBound (text : List Char) : Nat :=
  512 * (text.length + 2)

/-- All statements at a cursor and the place where they end. -/
def readStatements (d : Dialect) (fuel : Nat) (c : Cursor) : Found :=
  repeatedly (Pattern.read (grammar d) fuel (.rule .statement) none) fuel [] c

/-- The line that names an interpreter, if the text begins with one. -/
def readInterpreterLine (c : Cursor) : Found :=
  match c.token? false interpreterLine? with
  | some (text, start, next) => ([construct "hash_bang_line" start next.stop text []], next)
  | none => ([], c)

/-- The concrete tree of a text. It begins at the first character that is not blank and ends with
    the text. -/
def readProgram (d : Dialect) (text : List Char) : Concrete :=
  let stop := byteLength text
  let (front, start) := readInterpreterLine (Cursor.start text)
  let (statements, last) := readStatements d (depthBound text) start
  let left := last.trimmed
  let rest := if left.rest.isEmpty then [] else [fault left.offset stop]
  construct "program" (skipSpaces text 0).2 stop [] (front ++ statements ++ rest)

end Stepflow.TypeScript
