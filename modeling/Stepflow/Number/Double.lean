/-!
# Double precision numbers

A finite double is a sign, a significand and a binary exponent; everything about it is computed in
exact integer arithmetic.

* `Double`: the values, infinities and the undefined value included.
* `Double.ofRatio`: the double nearest to a quotient, a tie going to the even significand.
* `Double.toInt?`: the integer that a double is, if it is one.
* `Double.mul`, `Double.div`: exact product and quotient, rounded once.
-/

namespace Stepflow

/-- A double precision number. The value of `finite` is `significand * 2 ^ exponent` with its sign.
    Significands are below `2 ^ 53`, exponents from `-1074` to `971`, and only the least exponent
    goes with a significand below `2 ^ 52`. -/
inductive Double where
  | finite (negative : Bool) (significand : Nat) (exponent : Int)
  | infinite (negative : Bool)
  | nan
  deriving DecidableEq, Repr

namespace Double

/-- The least exponent. -/
def minExponent : Int := -1074

/-- The greatest exponent. -/
def maxExponent : Int := 971

/-- The integer nearest to a quotient; of two, the even one. -/
def roundHalfEven (num den : Nat) : Nat :=
  let quotient := num / den
  let twice := 2 * (num % den)
  if den < twice ∨ (twice = den ∧ quotient % 2 = 1) then quotient + 1 else quotient

/-- Numerator and denominator of a quotient divided by `2 ^ e`. -/
def scaled (num den : Nat) (e : Int) : Nat × Nat :=
  if 0 ≤ e then (num, den * Nat.pow 2 e.toNat) else (num * Nat.pow 2 (-e).toNat, den)

/-- The exponent with which a positive quotient has 53 binary digits, or the least one. -/
def exponentFor (num den : Nat) : Int :=
  let e : Int := (Nat.log2 num : Int) - (Nat.log2 den : Int) - 53
  let front := scaled num den e
  max (if front.1 / front.2 < Nat.pow 2 53 then e else e + 1) minExponent

/-- Zero with its sign. -/
def zero (negative : Bool) : Double :=
  finite negative 0 minExponent

/-- The double nearest to `num / den`. -/
def ofRatio (negative : Bool) (num den : Nat) : Double :=
  if num = 0 ∨ den = 0 then zero negative
  else
    let e := exponentFor num den
    let front := scaled num den e
    let significand := roundHalfEven front.1 front.2
    let carried := significand = Nat.pow 2 53
    let exponent := if carried then e + 1 else e
    if maxExponent < exponent then infinite negative
    else finite negative (if carried then Nat.pow 2 52 else significand) exponent

/-- The double nearest to an integer. -/
def ofInt (n : Int) : Double :=
  ofRatio (n < 0) n.natAbs 1

/-- The integer that a double is; `none` if it has a fraction or is not finite. -/
def toInt? : Double → Option Int
  | finite negative significand exponent =>
    let signed (n : Nat) : Int := if negative then -(n : Int) else n
    if 0 ≤ exponent then some (signed (significand * Nat.pow 2 exponent.toNat))
    else if significand % Nat.pow 2 (-exponent).toNat = 0 then
      some (signed (significand / Nat.pow 2 (-exponent).toNat))
    else none
  | infinite _ => none
  | nan => none

/-- The value is finite. -/
def isFinite : Double → Bool
  | finite .. => true
  | infinite _ => false
  | nan => false

/-- The double nearest to `num / den * 2 ^ e`. -/
def ofScaledRatio (negative : Bool) (num den : Nat) (e : Int) : Double :=
  let front := scaled num den (-e)
  ofRatio negative front.1 front.2

/-- The product. -/
def mul : Double → Double → Double
  | finite n₁ m₁ e₁, finite n₂ m₂ e₂ => ofScaledRatio (n₁ != n₂) (m₁ * m₂) 1 (e₁ + e₂)
  | nan, _ => nan
  | _, nan => nan
  | finite n₁ m₁ _, infinite n₂ => if m₁ = 0 then nan else infinite (n₁ != n₂)
  | infinite n₁, finite n₂ m₂ _ => if m₂ = 0 then nan else infinite (n₁ != n₂)
  | infinite n₁, infinite n₂ => infinite (n₁ != n₂)

/-- The quotient. -/
def div : Double → Double → Double
  | finite n₁ m₁ e₁, finite n₂ m₂ e₂ =>
    if m₂ = 0 then if m₁ = 0 then nan else infinite (n₁ != n₂)
    else ofScaledRatio (n₁ != n₂) m₁ m₂ (e₁ - e₂)
  | nan, _ => nan
  | _, nan => nan
  | finite n₁ _ _, infinite n₂ => zero (n₁ != n₂)
  | infinite n₁, finite n₂ _ _ => infinite (n₁ != n₂)
  | infinite _, infinite _ => nan

/-- The negative of a number. -/
def neg : Double → Double
  | finite negative significand exponent => finite (!negative) significand exponent
  | infinite negative => infinite (!negative)
  | nan => nan

end Double

end Stepflow
