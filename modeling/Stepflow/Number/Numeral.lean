import Stepflow.Number.Double

/-!
# Numerals

Texts that denote numbers, and their values.

* `natOfDigits?`: digits of a radix.
* `wordOfNumeral?`: a numeral of 64 bits without sign.
* `Double.ofDecimal`: the double nearest to a decimal fraction.
* `Double.ofNumeral?`: sign, digits with an optional point and an optional exponent; or the words
  for infinity and for the undefined value, in any case of letters.
-/

namespace Stepflow

/-- The value of a digit, letters standing for the values from ten on. -/
def digitValue? (c : Char) : Option Nat :=
  if c.isDigit then some (c.toNat - '0'.toNat)
  else if 'a' ≤ c ∧ c ≤ 'z' then some (c.toNat - 'a'.toNat + 10)
  else if 'A' ≤ c ∧ c ≤ 'Z' then some (c.toNat - 'A'.toNat + 10)
  else none

/-- The digits continue a number whose value so far is `value`. -/
def natOfDigitsFrom? (radix value : Nat) : List Char → Option Nat
  | [] => some value
  | c :: cs =>
    match digitValue? c with
    | some d => if d < radix then natOfDigitsFrom? radix (value * radix + d) cs else none
    | none => none

/-- The value of one or more digits of a radix. -/
def natOfDigits? (radix : Nat) (cs : List Char) : Option Nat :=
  if cs.isEmpty then none else natOfDigitsFrom? radix 0 cs

/-- The number of values of 64 bits. -/
def wordCount : Nat := Nat.pow 2 64

/-- A number below `2 ^ 64`: digits of a radix, perhaps behind a plus sign. -/
def wordOfNumeral? (radix : Nat) (cs : List Char) : Option Nat :=
  let digits := match cs with
    | '+' :: rest => rest
    | _ => cs
  (natOfDigits? radix digits).filter (· < wordCount)

/-- The value of decimal digits. -/
def natOfDecimal (cs : List Char) : Nat :=
  cs.foldl (fun value c => value * 10 + (c.toNat - '0'.toNat)) 0

namespace Double

/-- Number of decimal digits. -/
def decimalLength (n : Nat) : Nat :=
  (Nat.toDigits 10 n).length

/-- The double nearest to `digits * 10 ^ exponent`. Beyond the range of the exponents the power of
    ten is not computed. -/
def ofDecimal (negative : Bool) (digits : Nat) (exponent : Int) : Double :=
  let magnitude : Int := decimalLength digits + exponent
  if digits = 0 ∨ magnitude < -400 then zero negative
  else if 400 < magnitude then infinite negative
  else if 0 ≤ exponent then ofRatio negative (digits * Nat.pow 10 exponent.toNat) 1
  else ofRatio negative digits (Nat.pow 10 (-exponent).toNat)

/-- The exponent of a numeral: nothing, or a letter, a sign and one or more digits. -/
def exponentOf? : List Char → Option Int
  | [] => some 0
  | c :: cs =>
    if c = 'e' ∨ c = 'E' then
      let (negative, digits) : Bool × List Char := match cs with
        | '-' :: rest => (true, rest)
        | '+' :: rest => (false, rest)
        | _ => (false, cs)
      if !digits.isEmpty && digits.all Char.isDigit then
        let value : Int := natOfDecimal digits
        some (if negative then -value else value)
      else none
    else none

/-- The value of a numeral without sign. -/
def ofUnsigned? (negative : Bool) (cs : List Char) : Option Double :=
  let word := cs.map Char.toLower
  if word = "inf".toList ∨ word = "infinity".toList then some (infinite negative)
  else if word = "nan".toList then some nan
  else
    let whole := cs.takeWhile Char.isDigit
    let rest := cs.dropWhile Char.isDigit
    let (fraction, rest) : List Char × List Char := match rest with
      | '.' :: rest => (rest.takeWhile Char.isDigit, rest.dropWhile Char.isDigit)
      | _ => ([], rest)
    if whole.isEmpty && fraction.isEmpty then none
    else
      (exponentOf? rest).map fun exponent =>
        ofDecimal negative (natOfDecimal (whole ++ fraction)) (exponent - fraction.length)

/-- The value of a numeral. -/
def ofNumeral? : List Char → Option Double
  | '-' :: cs => ofUnsigned? true cs
  | '+' :: cs => ofUnsigned? false cs
  | cs => ofUnsigned? false cs

end Double

end Stepflow
