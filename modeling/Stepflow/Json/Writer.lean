import Stepflow.Json.Value
import Stepflow.Number.Shortest

/-!
# Writing JSON

* `quote`: a text between quotation marks.
* `write`: the text of a value, on one line or with a line for every item and member.
-/

namespace Stepflow.Json

/-- A hexadecimal digit. -/
def hexDigit (n : Nat) : Char :=
  Nat.digitChar n

/-- How a character is written inside quotation marks. Only what must be escaped is. -/
def escape (c : Char) : List Char :=
  if c = '"' then ['\\', '"']
  else if c = '\\' then ['\\', '\\']
  else if c = '\x08' then ['\\', 'b']
  else if c = '\x0c' then ['\\', 'f']
  else if c = '\n' then ['\\', 'n']
  else if c = '\r' then ['\\', 'r']
  else if c = '\t' then ['\\', 't']
  else if c.toNat < 0x20 then
    ['\\', 'u', '0', '0', hexDigit (c.toNat / 16), hexDigit (c.toNat % 16)]
  else [c]

/-- A text between quotation marks. -/
def quote (s : String) : List Char :=
  '"' :: s.toList.flatMap escape ++ ['"']

/-- A new line at a depth, where lines are used. -/
def newline (pretty : Bool) (depth : Nat) : List Char :=
  if pretty then '\n' :: List.replicate (2 * depth) ' ' else []

/-- A key and the colon behind it. -/
def writeKey (pretty : Bool) (key : String) : List Char :=
  quote key ++ ':' :: (if pretty then [' '] else [])

/-- The text of a number, exponents with their sign; a number that is not finite has none. -/
def writeFloat (x : Double) : List Char :=
  if x.isFinite then (x.scientific "+").toList else "null".toList

mutual

/-- The text of a value at a depth, in front of the text that follows it. -/
def writeOnto (pretty : Bool) (depth : Nat) (rest : List Char) : Value → List Char
  | .null | .unfit | .stray | .broken => "null".toList ++ rest
  | .bool b => (if b then "true" else "false").toList ++ rest
  | .int n => (toString n).toList ++ rest
  | .float x => writeFloat x ++ rest
  | .string s => quote s ++ rest
  | .array [] => '[' :: ']' :: rest
  | .array (v :: vs) =>
    '[' :: newline pretty (depth + 1) ++
      writeOnto pretty (depth + 1)
        (writeItems pretty (depth + 1) (newline pretty depth ++ ']' :: rest) vs) v
  | .object [] => '{' :: '}' :: rest
  | .object ((k, v) :: ms) =>
    '{' :: newline pretty (depth + 1) ++ writeKey pretty k ++
      writeOnto pretty (depth + 1)
        (writeMembers pretty (depth + 1) (newline pretty depth ++ '}' :: rest) ms) v
  | .variant tag v =>
    '{' :: newline pretty (depth + 1) ++ writeKey pretty tag ++
      writeOnto pretty (depth + 1) (newline pretty depth ++ '}' :: rest) v

/-- The items behind the first one, in front of the text that follows them. -/
def writeItems (pretty : Bool) (depth : Nat) (rest : List Char) : List Value → List Char
  | [] => rest
  | v :: vs =>
    ',' :: newline pretty depth ++ writeOnto pretty depth (writeItems pretty depth rest vs) v

/-- The members behind the first one, in front of the text that follows them. -/
def writeMembers (pretty : Bool) (depth : Nat) (rest : List Char) :
    List (String × Value) → List Char
  | [] => rest
  | (k, v) :: ms =>
    ',' :: newline pretty depth ++ writeKey pretty k ++
      writeOnto pretty depth (writeMembers pretty depth rest ms) v

end

/-- The text of a value. -/
def write (pretty : Bool) (v : Value) : String :=
  String.ofList (writeOnto pretty 0 [] v)

end Stepflow.Json
