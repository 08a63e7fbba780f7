import Stepflow.Json.Value
import Stepflow.Number.Numeral

/-!
# Reading JSON

* `Number.read?`: the spelling of a number and its value. Without fraction and exponent it is an
  integer, if 64 bits hold it. Otherwise the digits that fit into 64 bits are scaled by a power of
  ten, with one rounding.
* `Quoted.read?`: a quoted text.
* `readValue`: the value at the front of a text, and what follows it.
* `readText`: the value of a whole text, and whether nothing else is in it.
-/

namespace Stepflow.Json

/-! ## Numbers -/

namespace Number

/-- A number as it is spelled. -/
structure Spelling where
  negative : Bool
  whole : List Char
  fraction : List Char
  exponent : Option Int

/-- One or more digits, and what follows them. -/
def digits? (cs : List Char) : Option (List Char × List Char) :=
  if (cs.takeWhile Char.isDigit).isEmpty then none
  else some (cs.takeWhile Char.isDigit, cs.dropWhile Char.isDigit)

/-- A sign, and what follows it. -/
def sign : List Char → Bool × List Char
  | '-' :: cs => (true, cs)
  | '+' :: cs => (false, cs)
  | cs => (false, cs)

/-- The exponent at the front of a text, if there is one; `none` if it is broken off. -/
def exponent? (cs : List Char) : Option (Option Int × List Char) :=
  match cs with
  | c :: rest =>
    if c = 'e' ∨ c = 'E' then
      let (negative, rest) := sign rest
      (digits? rest).map fun (digits, rest) =>
        let value : Int := natOfDecimal digits
        (some (if negative then -value else value), rest)
    else some (none, cs)
  | [] => some (none, cs)

/-- The fraction at the front of a text, if there is one; `none` if it is broken off. -/
def fraction? : List Char → Option (List Char × List Char)
  | '.' :: cs => digits? cs
  | cs => some ([], cs)

/-- The spelling of a number, and what follows it. A zero in front of other digits is refused. -/
def spelling? (cs : List Char) : Option (Spelling × List Char) := do
  let (negative, cs) : Bool × List Char := match cs with
    | '-' :: rest => (true, rest)
    | _ => (false, cs)
  let (whole, cs) ← digits? cs
  if whole.head? = some '0' ∧ whole.length ≠ 1 then none
  else
    let (fraction, cs) ← fraction? cs
    let (exponent, cs) ← exponent? cs
    some ({ negative, whole, fraction, exponent }, cs)

/-- Continues a number with digits as long as 64 bits hold it. The rest is left. -/
def absorb (value : Nat) : List Char → Nat × List Char
  | [] => (value, [])
  | c :: cs =>
    let next := value * 10 + (c.toNat - '0'.toNat)
    if next < wordCount then absorb next cs else (value, c :: cs)

/-- A power of ten, rounded. -/
def powerOfTen (k : Nat) : Double :=
  Double.ofRatio false (Nat.pow 10 k) 1

/-- The greatest power of ten that is not infinite. -/
def maxPower : Nat := 308

/-- Divides by `10 ^ k`, in several steps if that is infinite. -/
def divideByPower : Nat → Double → Nat → Double
  | 0, x, _ => x
  | fuel + 1, x, k =>
    if k ≤ maxPower then x.div (powerOfTen k)
    else divideByPower fuel (x.div (powerOfTen maxPower)) (k - maxPower)

/-- `digits * 10 ^ exponent`; a result that is too large denotes nothing. -/
def scale (negative : Bool) (digits : Nat) (exponent : Int) : Value :=
  let signed (x : Double) : Value := .float (if negative then x.neg else x)
  let x := Double.ofRatio false digits 1
  if digits = 0 then signed (Double.zero false)
  else if exponent < 0 then signed (divideByPower 4 x (min exponent.natAbs 1000))
  else if maxPower < exponent.toNat then .unfit
  else
    match x.mul (powerOfTen exponent.toNat) with
    | .infinite _ => .unfit
    | y => signed y

/-- The value of a number. A negative zero is no integer. -/
def Spelling.value (s : Spelling) : Value :=
  let n := natOfDecimal s.whole
  let isInteger := s.fraction.isEmpty && s.exponent.isNone
  if isInteger && !s.negative && n < wordCount then .int n
  else if isInteger && s.negative && 0 < n && n ≤ Nat.pow 2 63 then .int (-(n : Int))
  else
    let (digits, left) := absorb 0 s.whole
    let (digits, fractionLeft) := absorb digits s.fraction
    let places : Int := (s.fraction.length : Int) - fractionLeft.length
    scale s.negative digits ((s.exponent.getD 0) + left.length - places)

/-- The number at the front of a text, and what follows it. -/
def read? (cs : List Char) : Option (Value × List Char) :=
  (spelling? cs).map fun (s, rest) => (s.value, rest)

end Number

/-! ## Quoted texts -/

namespace Quoted

/-- Escapes of one character. -/
def escapes : List (Char × Nat) :=
  [('"', 0x22), ('\\', 0x5C), ('/', 0x2F), ('b', 0x08), ('f', 0x0C), ('n', 0x0A), ('r', 0x0D),
    ('t', 0x09)]

/-- The code units behind the opening quotation mark, the last one first, and what follows the
    closing one; `found` are those before. `none` if the text is broken off. -/
def units? (found : List Nat) : List Char → Option (List Nat × List Char)
  | [] => none
  | '"' :: cs => some (found, cs)
  | '\\' :: 'u' :: a :: b :: c :: d :: cs =>
    match natOfDigits? 16 [a, b, c, d] with
    | some n => units? (n :: found) cs
    | none => none
  | '\\' :: c :: cs =>
    match escapes.lookup c with
    | some n => units? (n :: found) cs
    | none => none
  | c :: cs => if c.toNat < 0x20 ∨ c = '\\' then none else units? (c.toNat :: found) cs

/-- The first half of a surrogate pair. -/
def isHigh (n : Nat) : Bool := 0xD800 ≤ n && n < 0xDC00

/-- The second half of a surrogate pair. -/
def isLow (n : Nat) : Bool := 0xDC00 ≤ n && n < 0xE000

/-- The characters of code units that are given from the last one to the first; `found` are the
    characters behind them. `none` if half of a surrogate pair stands alone. -/
def characters? (found : List Char) : List Nat → Option (List Char)
  | [] => some found
  | low :: high :: units =>
    if isLow low && isHigh high then
      characters? (Char.ofNat (0x10000 + (high - 0xD800) * 0x400 + (low - 0xDC00)) :: found) units
    else if h : low.isValidChar then
      characters? (Char.ofNatAux low h :: found) (high :: units)
    else none
  | [unit] => if h : unit.isValidChar then some (Char.ofNatAux unit h :: found) else none

/-- The text behind an opening quotation mark, and what follows the closing one. The text itself is
    `none` if it is well spelled and denotes nothing. -/
def read? (cs : List Char) : Option (Option String × List Char) :=
  (units? [] cs).map fun (units, rest) => ((characters? [] units).map String.ofList, rest)

end Quoted

/-! ## Values -/

/-- The four blanks of JSON. -/
def isSpace (c : Char) : Bool :=
  c == ' ' || c == '\n' || c == '\t' || c == '\r'

/-- What follows the blanks. -/
def skipSpace (cs : List Char) : List Char :=
  cs.dropWhile isSpace

/-- A value and what follows it; `none` if the text broke off inside. -/
structure Part where
  value : Value
  rest : Option (List Char)

namespace Part

/-- The text breaks off here. -/
def broken : Part := { value := .broken, rest := none }

/-- The value reads on at `rest`. -/
def read (value : Value) (rest : List Char) : Part := { value, rest := some rest }

/-- A container that is nested too deeply is unfit, if it is whole. -/
def atDepth (deep : Bool) (p : Part) : Part :=
  if deep && p.rest.isSome then { p with value := .unfit } else p

end Part

/-- Containers at this depth are too deep. -/
def maxDepth : Nat := 127

/-- The word at the front of a text stands for the value. -/
def readWord (word : String) (value : Value) (cs : List Char) : Part :=
  if word.toList.isPrefixOf cs then .read value (cs.drop word.length) else .broken

mutual

/-- The value at the front of a text. `depth` counts the containers around it, and the first
    argument bounds the number of values. -/
def readValue : Nat → Nat → List Char → Part
  | 0, _, _ => .broken
  | fuel + 1, depth, cs =>
    match skipSpace cs with
    | 'n' :: rest => readWord "null" .null ('n' :: rest)
    | 't' :: rest => readWord "true" (.bool true) ('t' :: rest)
    | 'f' :: rest => readWord "false" (.bool false) ('f' :: rest)
    | '"' :: rest =>
      match Quoted.read? rest with
      | some (some s, rest) => .read (.string s) rest
      | some (none, rest) => .read .unfit rest
      | none => .broken
    | '[' :: rest =>
      match skipSpace rest with
      | ']' :: rest => Part.atDepth (maxDepth ≤ depth) (.read (.array []) rest)
      | rest => Part.atDepth (maxDepth ≤ depth) (readItems fuel (depth + 1) [] rest)
    | '{' :: rest =>
      match skipSpace rest with
      | '}' :: rest => Part.atDepth (maxDepth ≤ depth) (.read (.object []) rest)
      | rest => Part.atDepth (maxDepth ≤ depth) (readMembers fuel (depth + 1) [] rest)
    | rest =>
      match Number.read? rest with
      | some (value, rest) => .read value rest
      | none => .broken

/-- The items of an array and its end; `found` are the items so far, the last one first. -/
def readItems : Nat → Nat → List Value → List Char → Part
  | 0, _, found, _ => { value := .array (.broken :: found).reverse, rest := none }
  | fuel + 1, depth, found, cs =>
    let part := readValue fuel depth cs
    let found := part.value :: found
    match part.rest with
    | none => { value := .array found.reverse, rest := none }
    | some rest =>
      match skipSpace rest with
      | ',' :: rest => readItems fuel depth found rest
      | ']' :: rest => .read (.array found.reverse) rest
      | _ => { value := .array (.broken :: found).reverse, rest := none }

/-- The members of an object and its end; `found` are the members so far, the last one first. -/
def readMembers : Nat → Nat → List (String × Value) → List Char → Part
  | 0, _, found, _ => { value := .object (("", .broken) :: found).reverse, rest := none }
  | fuel + 1, depth, found, cs =>
    let breakOff : Part := { value := .object (("", .broken) :: found).reverse, rest := none }
    match skipSpace cs with
    | '"' :: cs =>
      match Quoted.read? cs with
      | none => breakOff
      | some (key?, cs) =>
        match skipSpace cs with
        | ':' :: cs =>
          let part := readValue fuel depth cs
          let member := match key? with
            | some key => (key, part.value)
            | none => ("", if part.rest.isSome then .stray else .broken)
          let found := member :: found
          match part.rest with
          | none => { value := .object found.reverse, rest := none }
          | some rest =>
            match skipSpace rest with
            | ',' :: rest => readMembers fuel depth found rest
            | '}' :: rest => .read (.object found.reverse) rest
            | _ => { value := .object (("", .broken) :: found).reverse, rest := none }
        | _ => breakOff
    | _ => breakOff

end

/-- The value of a text, and whether the text holds nothing else. -/
def readText (text : String) : Value × Bool :=
  let cs := text.toList
  let part := readValue (2 * cs.length + 2) 0 cs
  (part.value,
    match part.rest with
    | some rest => (skipSpace rest).isEmpty
    | none => false)

end Stepflow.Json
