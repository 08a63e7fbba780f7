import Stepflow.Number.Numeral
import Stepflow.Text.Bytes

/-!
# Values of literals

* `numberValue`: the number that a numeric literal denotes.
* `stringValue`: the text that a quoted literal denotes.
-/

namespace Stepflow.Literal

open Stepflow.Text

/-! ## Numbers -/

/-- The radix that the first two characters of a literal announce. -/
def radix? : List Char → Option Nat
  | ['0', 'x'] | ['0', 'X'] => some 16
  | ['0', 'o'] | ['0', 'O'] => some 8
  | ['0', 'b'] | ['0', 'B'] => some 2
  | _ => none

/-- The number that a numeric literal denotes. Underscores do not count; a literal that denotes none
    has the undefined value. -/
def numberValue (text : String) : Double :=
  let digits := text.toList.filter (· != '_')
  match radix? (digits.take 2) with
  | some radix =>
    match wordOfNumeral? radix (digits.drop 2) with
    | some n => Double.ofRatio false n 1
    | none => .nan
  | none => (Double.ofNumeral? digits).getD .nan

/-! ## Strings -/

/-- What stands for a code point that is not a character. -/
def replacement : Char := '�'

/-- The character whose code point is written in hexadecimal digits. -/
def codePoint (digits : List Char) : Char :=
  match wordOfNumeral? 16 digits with
  | some n => if h : n.isValidChar then Char.ofNatAux n h else replacement
  | none => replacement

/-- Escapes of one letter. -/
def letterEscapes : List (Char × Char) :=
  [('n', '\n'), ('t', '\t'), ('r', '\r'), ('b', '\x08'), ('f', '\x0c'), ('v', '\x0b'),
    ('0', '\x00')]

/-- The text with its escapes resolved. A line break behind a backslash is dropped. -/
def unescape : List Char → List Char
  | [] => []
  | '\\' :: [] => ['\\']
  | '\\' :: '\r' :: '\n' :: cs => unescape cs
  | '\\' :: '\r' :: cs => unescape cs
  | '\\' :: '\n' :: cs => unescape cs
  | '\\' :: 'x' :: cs => codePoint (cs.take 2) :: unescape (cs.drop 2)
  | '\\' :: 'u' :: '{' :: cs =>
    codePoint (cs.takeWhile (· != '}')) :: unescape ((cs.dropWhile (· != '}')).drop 1)
  | '\\' :: 'u' :: cs => codePoint (cs.take 4) :: unescape (cs.drop 4)
  | '\\' :: c :: cs => (letterEscapes.lookup c).getD c :: unescape cs
  | c :: cs => c :: unescape cs
termination_by cs => cs.length
decreasing_by
  all_goals simp_wf
  all_goals try omega
  have := (List.dropWhile_suffix (l := cs) (· != '}')).length_le
  omega

/-- The text that a literal between quotation marks denotes. -/
def stringValue (text : String) : String :=
  let cs := text.toList
  String.ofList (unescape (slice cs 1 (byteLength cs - 1)))

end Stepflow.Literal
