import Stepflow.Number.Numeral

/-!
# Shortest decimal digits

The fewest decimal digits that tell a double from all others, and the layouts of numbers.

* `Double.Tie`: which decimal is taken where two are equally near.
* `Double.shortest`: the decimal with the fewest digits that reads back as the same double; of
  several, the nearest one.
* `Double.positional`: all digits around a point, never an exponent.
* `Double.scientific`: positional for moderate sizes, else with an exponent.
* `Double.label`: integers of moderate size without a point, all else positional.
-/

namespace Stepflow

/-- A decimal fraction `digits * 10 ^ exponent`. -/
structure Decimal where
  digits : Nat
  exponent : Int
  deriving DecidableEq, Repr

namespace Decimal

/-- Moves zeros at the end of the digits into the exponent; at most as many as `fuel`. -/
def stripZeros : Nat → Decimal → Decimal
  | 0, d => d
  | fuel + 1, d =>
    if d.digits ≠ 0 ∧ d.digits % 10 = 0 then
      stripZeros fuel { digits := d.digits / 10, exponent := d.exponent + 1 }
    else d

/-- Numerator and denominator of `num / den / 10 ^ p`. -/
def scaled (num den : Nat) (p : Int) : Nat × Nat :=
  if 0 ≤ p then (num, den * Nat.pow 10 p.toNat) else (num * Nat.pow 10 (-p).toNat, den)

/-- The digits as characters. -/
def characters (d : Decimal) : List Char :=
  Nat.toDigits 10 d.digits

end Decimal

namespace Double

/-- The number of decimal places in front of the point of a positive quotient: the least `k` with
    `num / den < 10 ^ k`. -/
def decimalPlaces (num den : Nat) : Int :=
  let k : Int := (decimalLength num : Int) - (decimalLength den : Int)
  let front := Decimal.scaled num den k
  if front.2 ≤ front.1 then k + 1 else k

/-- Which neighbour is taken where both are equally near: the greater one, or the even one. -/
inductive Tie where
  | up
  | even
  deriving DecidableEq, Repr

/-- Whether the neighbour in front is taken. -/
def Tie.below (tie : Tie) (floor : Nat) : Bool :=
  match tie with
  | up => false
  | even => floor % 2 == 0

/-- A neighbour of the value among the decimals with exponent `p` that lies in the interval of the
    numbers that round to the value. The value is `4 * m` quarters of `2 ^ e`; the interval reaches
    from `4 * m - below` to `4 * m + 2` and contains its ends if the significand is even. -/
def neighbour? (tie : Tie) (m below : Nat) (e p : Int) : Option Nat :=
  let unit := Double.scaled 1 4 (-e)
  let grid := Decimal.scaled unit.1 unit.2 p
  let floor := 4 * m * grid.1 / grid.2
  let closed := m % 2 = 0
  let inside (d : Nat) : Bool :=
    let at_ := d * grid.2
    let low := (4 * m - below) * grid.1
    let high := (4 * m + 2) * grid.1
    if closed then low ≤ at_ && at_ ≤ high else low < at_ && at_ < high
  let gapBelow := 4 * m * grid.1 - floor * grid.2
  let gapAbove := (floor + 1) * grid.2 - 4 * m * grid.1
  match inside floor, inside (floor + 1) with
  | true, true =>
    let front := if gapBelow = gapAbove then tie.below floor else gapBelow < gapAbove
    some (if front then floor else floor + 1)
  | true, false => some floor
  | false, true => some (floor + 1)
  | false, false => none

/-- Tries one digit after the other, from `count` on. -/
def shortestFrom (tie : Tie) (m below : Nat) (e places : Int) : Nat → Nat → Decimal
  | 0, count =>
    let unit := Double.scaled 1 1 (-e)
    let grid := Decimal.scaled unit.1 unit.2 (places - count)
    { digits := m * grid.1 / grid.2, exponent := places - count }
  | fuel + 1, count =>
    match neighbour? tie m below e (places - count) with
    | some digits => { digits := digits, exponent := places - count }
    | none => shortestFrom tie m below e places fuel (count + 1)

/-- The decimal with the fewest digits that rounds to `m * 2 ^ e`. -/
def shortest (tie : Tie) (m : Nat) (e : Int) : Decimal :=
  if m = 0 then { digits := 0, exponent := 0 }
  else
    let below := if m = Nat.pow 2 52 ∧ minExponent < e then 1 else 2
    let unit := Double.scaled m 1 (-e)
    Decimal.stripZeros 17 (shortestFrom tie m below e (decimalPlaces unit.1 unit.2) 17 1)

/-- Digits around a point; a point is written only if digits follow it. -/
def layOut (digits : List Char) (exponent : Int) : List Char :=
  if 0 ≤ exponent then digits ++ List.replicate exponent.toNat '0'
  else
    let places := (-exponent).toNat
    if places < digits.length then
      digits.take (digits.length - places) ++ '.' :: digits.drop (digits.length - places)
    else '0' :: '.' :: List.replicate (places - digits.length) '0' ++ digits

/-- The sign of a number that is written. -/
def signText (negative : Bool) : List Char :=
  if negative then ['-'] else []

/-- All digits of a number, without an exponent. -/
def positional : Double → String
  | finite negative significand exponent =>
    let d := shortest .up significand exponent
    String.ofList (signText negative ++ layOut d.characters d.exponent)
  | infinite negative => if negative then "-inf" else "inf"
  | nan => "NaN"

/-- Integers whose absolute value is below `10 ^ 15` without a point, all else positional. -/
def label (x : Double) : String :=
  match x.toInt? with
  | some n => if n.natAbs < Nat.pow 10 15 then toString n else x.positional
  | none => x.positional

/-- Up to sixteen digits in front of the point and four zeros behind it are written positionally,
    always with a point; other numbers with an exponent. `plus` is the sign of an exponent that is
    not negative. -/
def scientific (plus : String) : Double → String
  | finite negative significand exponent =>
    let d := shortest .even significand exponent
    let digits := d.characters
    let places : Int := digits.length + d.exponent
    let body :=
      if significand = 0 then ['0', '.', '0']
      else if 0 ≤ d.exponent ∧ places ≤ 16 then layOut digits d.exponent ++ ['.', '0']
      else if -5 < places ∧ places ≤ 16 then layOut digits d.exponent
      else
        let power := (if 0 < places then plus.toList else []) ++ (toString (places - 1)).toList
        match digits with
        | [c] => c :: 'e' :: power
        | c :: cs => c :: '.' :: cs ++ 'e' :: power
        | [] => []
    String.ofList (signText negative ++ body)
  | infinite negative => if negative then "-inf" else "inf"
  | nan => "NaN"

end Double

end Stepflow
