import Stepflow.Number.Shortest
import Stepflow.Text.Pieces

/-!
# Scalars of YAML

How a text is written so that it reads back as the same text.

* `readsAsOther`: without quotation marks the text would be taken for something else.
* `Style`, `styleOf`: the way in which a text is written.
* `writeText`: the written text.
-/

namespace Stepflow.Yaml

/-! ## Texts that look like something else -/

/-- Digits with a sign in front, of which the first is a zero and not the only one. -/
def isPaddedNumeral (cs : List Char) : Bool :=
  let digits := match cs with
    | '-' :: rest => rest
    | '+' :: rest => rest
    | _ => cs
  match digits with
  | '0' :: c :: rest => (c :: rest).all Char.isDigit
  | _ => false

/-- Digits of a radix behind their mark, or decimal digits, with a value below `bound`. -/
def isNumeralBelow (bound : Nat) (cs : List Char) : Bool :=
  let below (radix : Nat) (digits : List Char) : Bool :=
    (natOfDigits? radix digits).any (· < bound)
  match cs with
  | '0' :: 'x' :: digits => below 16 digits
  | '0' :: 'o' :: digits => below 8 digits
  | '0' :: 'b' :: digits => below 2 digits
  | digits => !isPaddedNumeral digits && below 10 digits

/-- An integer of at most 128 bits. -/
def isInteger : List Char → Bool
  | '-' :: cs => isNumeralBelow (Nat.pow 2 127 + 1) cs
  | '+' :: cs => isNumeralBelow (Nat.pow 2 128) cs
  | cs => isNumeralBelow (Nat.pow 2 128) cs

/-- The spellings of infinity and of the undefined value. -/
def specialFloats : List String :=
  [".inf", ".Inf", ".INF", "+.inf", "+.Inf", "+.INF", "-.inf", "-.Inf", "-.INF", ".nan", ".NaN",
    ".NAN"]

/-- A number that is finite, or one of the special spellings. -/
def isFloat (s : String) : Bool :=
  specialFloats.contains s || (Double.ofNumeral? s.toList).any Double.isFinite

/-- The spellings of the absent value and of the truth values. -/
def reservedWords : List String :=
  ["", "null", "Null", "NULL", "~", "true", "True", "TRUE", "false", "False", "FALSE"]

/-- Without quotation marks the text would be taken for something else. -/
def readsAsOther (s : String) : Bool :=
  reservedWords.contains s || isInteger s.toList || isPaddedNumeral s.toList || isFloat s

/-! ## Styles -/

/-- A character that is written as it is. -/
def isPrintable (c : Char) : Bool :=
  let n := c.toNat
  n = 0x0A || (0x20 ≤ n && n ≤ 0x7E) || (0xA0 ≤ n && n ≤ 0xD7FF) ||
    (0xE000 ≤ n && n ≤ 0xFFFD && n != 0xFEFF) || 0x10000 ≤ n

/-- A character that separates: a blank or a line break, or the end of the text. -/
def separates : Option Char → Bool
  | none => true
  | some c => c == ' ' || c == '\t' || c == '\n' || c == '\r'

/-- Characters with which no plain text begins. -/
def indicators : List Char :=
  ['#', ',', '[', ']', '{', '}', '&', '*', '!', '|', '>', '\'', '"', '%', '@', '\x60']

/-- Inside a plain text, a colon in front of a separator and a number sign behind one would end
    it. `last` is the character in front. -/
def hasMark (last : Option Char) : List Char → Bool
  | [] => false
  | c :: cs =>
    (c == ':' && separates cs.head?) || (c == '#' && last.isSome && separates last) ||
      hasMark (some c) cs

/-- The text may be written without quotation marks. -/
def isPlain (cs : List Char) : Bool :=
  match cs with
  | [] => false
  | c :: rest =>
    !(indicators.contains c) && c != ' ' && cs.getLast? != some ' ' &&
      !("---".toList.isPrefixOf cs) && !("...".toList.isPrefixOf cs) &&
      !((c == '?' || c == ':' || c == '-') && separates rest.head?) && !hasMark none cs

/-- A line break stands directly behind a space. -/
def hasSpaceBreak : List Char → Bool
  | ' ' :: '\n' :: _ => true
  | _ :: cs => hasSpaceBreak cs
  | [] => false

/-- The ways to write a text. -/
inductive Style where
  | plain
  | single
  | double
  | literal
  deriving DecidableEq, Repr

/-- The way in which a text is written. -/
def styleOf (s : String) : Style :=
  let cs := s.toList
  if !cs.all isPrintable then .double
  else if cs.contains '\n' then
    if hasSpaceBreak cs || cs.getLast? == some ' ' then .double else .literal
  else if readsAsOther s || !isPlain cs then .single
  else .plain

/-! ## Writing -/

/-- Escapes of one letter. -/
def letterEscapes : List (Char × Char) :=
  [('\x00', '0'), ('\x07', 'a'), ('\x08', 'b'), ('\x09', 't'), ('\x0a', 'n'), ('\x0b', 'v'),
    ('\x0c', 'f'), ('\x0d', 'r'), ('\x1b', 'e'), ('"', '"'), ('\\', '\\'), ('\u0085', 'N')]

/-- The hexadecimal digits of a number in upper case, filled up to a width. -/
def hexDigits (width n : Nat) : List Char :=
  let digits := (Nat.toDigits 16 n).map Char.toUpper
  List.replicate (width - digits.length) '0' ++ digits

/-- How a character is written between double quotation marks. -/
def escape (c : Char) : List Char :=
  match letterEscapes.lookup c with
  | some letter => ['\\', letter]
  | none =>
    let n := c.toNat
    if isPrintable c then [c]
    else if n ≤ 0xFF then '\\' :: 'x' :: hexDigits 2 n
    else if n ≤ 0xFFFF then '\\' :: 'u' :: hexDigits 4 n
    else '\\' :: 'U' :: hexDigits 8 n

/-- A new line at an indentation. -/
def newline (indent : Nat) : List Char :=
  '\n' :: List.replicate indent ' '

/-- The mark of a literal block: a digit where the first line would hide the indentation, and what
    becomes of line breaks at the end. -/
def literalMark (cs : List Char) : List Char :=
  let width := if cs.head? = some ' ' ∨ cs.head? = some '\n' then ['2'] else []
  let ending := match cs.reverse with
    | '\n' :: '\n' :: _ => ['+']
    | ['\n'] => ['+']
    | '\n' :: _ => []
    | _ => ['-']
  '|' :: width ++ ending

/-- The lines of a literal block. The last line break is left to whatever follows. -/
def literalLines (indent : Nat) (cs : List Char) : List Char :=
  let body := match cs.reverse with
    | '\n' :: rest => rest.reverse
    | _ => cs
  (Text.splitOn '\n' body).flatMap fun line =>
    if line.isEmpty then ['\n'] else newline indent ++ line

/-- The written text; the lines of a block stand at the given indentation. -/
def writeText (indent : Nat) (s : String) : List Char :=
  let cs := s.toList
  match styleOf s with
  | .plain => cs
  | .single => '\'' :: (cs.flatMap fun c => if c = '\'' then ['\'', '\''] else [c]) ++ ['\'']
  | .double => '"' :: cs.flatMap escape ++ ['"']
  | .literal => literalMark cs ++ literalLines indent cs

end Stepflow.Yaml
