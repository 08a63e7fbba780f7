import Mathlib
import Stepflow.Number.Double

/-!
# Rounding to a double

The integers that round to a double lie in an interval around it. Everything is said in natural
numbers: `2 ^ e` is the quotient of `up e` and `down e`, and lengths are counted in quarters.

* `Double.Valid`: significand and exponent are in their ranges.
* `Double.up`, `Double.down`: numerator and denominator of a power of two.
* `Double.Near`: an integer lies in the interval around `m * 2 ^ e`.
* `Double.value?`: the rational number that a double stands for.

Results:
* `Double.roundHalfEven_eq_iff`: the nearest integer, and the even one of two.
* `Double.exponentFor_one`: the exponent of an integer.
* `Double.ofRatio_eq_iff`, `Double.ofInt_eq_iff`: an integer rounds to a double if and only if it
  lies in the interval.
* `Double.Near.of_between`, `Double.Near.le_and_le`: the interval has no gaps and is narrow.
* `Double.Valid.ofInt_eq`: an integer that is a double rounds to itself.
* `Double.valid_ofInt`: integers of at most 53 binary digits are doubles.
* `Double.toInt?_eq_some_iff`: which doubles are integers.
-/

namespace Stepflow.Double

/-! ## Quotients -/

/-- The integer `r` is nearest to `num / den`, and even if another one is as near. -/
def Nearest (num den r : Nat) : Prop :=
  if r % 2 = 0 then 2 * r * den ≤ 2 * num + den ∧ 2 * num ≤ 2 * r * den + den
  else 2 * r * den < 2 * num + den ∧ 2 * num < 2 * r * den + den

theorem roundHalfEven_eq_iff {num den r : Nat} (hden : 0 < den) :
    roundHalfEven num den = r ↔ Nearest num den r := by
  have hnum := Nat.div_add_mod num den
  have hmod := Nat.mod_lt num hden
  have hvalue : roundHalfEven num den = num / den ∨ roundHalfEven num den = num / den + 1 := by
    rw [roundHalfEven]
    split <;> simp
  -- The quotient and the next integer are the only candidates.
  rcases Nat.lt_trichotomy r (num / den) with hlt | heq | hgt
  · have hmul : den * (r + 1) ≤ den * (num / den) := Nat.mul_le_mul_left den hlt
    rw [Nat.mul_succ, Nat.mul_comm den r] at hmul
    rw [Nearest, Nat.mul_assoc]
    refine iff_of_false (by omega) ?_
    split <;> omega
  · rw [Nearest, Nat.mul_assoc, heq, Nat.mul_comm (num / den) den, roundHalfEven]
    split <;> split <;> omega
  · have hmul : den * (num / den + 1) ≤ den * r := Nat.mul_le_mul_left den hgt
    rw [Nearest, Nat.mul_assoc, Nat.mul_comm r den, roundHalfEven]
    rw [Nat.mul_succ] at hmul
    by_cases hr : r = num / den + 1
    · rw [hr, Nat.mul_succ]
      split <;> split <;> omega
    · have hmul' : den * (num / den + 2) ≤ den * r := Nat.mul_le_mul_left den (by omega)
      rw [Nat.mul_add] at hmul'
      split <;> split <;> omega

/-! ## Powers of two -/

/-- The numerator of `2 ^ e`. -/
def up (e : Int) : Nat := 2 ^ e.toNat

/-- The denominator of `2 ^ e`. -/
def down (e : Int) : Nat := 2 ^ (-e).toNat

theorem up_pos (e : Int) : 0 < up e := Nat.two_pow_pos _

theorem down_pos (e : Int) : 0 < down e := Nat.two_pow_pos _

theorem scaled_eq (num den : Nat) (e : Int) : scaled num den e = (num * down e, den * up e) := by
  rw [scaled, up, down]
  split
  · next h => rw [show (-e).toNat = 0 by omega, Nat.pow_zero, Nat.mul_one, Nat.pow_eq]
  · next h => rw [show e.toNat = 0 by omega, Nat.pow_zero, Nat.mul_one, Nat.pow_eq]

theorem scaled_neg (num den : Nat) (e : Int) :
    scaled num den (-e) = (num * up e, den * down e) := by
  rw [scaled_eq, down, Int.neg_neg, up]
  rfl

/-- Half of `2 ^ e` is `2 ^ (e - 1)`. -/
theorem up_mul_down_pred (e : Int) : up e * down (e - 1) = 2 * (up (e - 1) * down e) := by
  rw [up, down, up, down, ← Nat.pow_add, ← Nat.pow_add, ← Nat.pow_succ']
  congr 1
  omega

/-- If `2 ^ (52 + d)` is at most an integer and the integer is below `2 ^ (53 + e)`, then `d` is at
    most `e`. -/
theorem le_of_scaled {k : Nat} {d e : Int} (hd : 2 ^ 52 * up d ≤ k * down d)
    (he : k * down e < 2 ^ 53 * up e) : d ≤ e := by
  have hlt : 2 ^ (52 + d.toNat + (-e).toNat) < 2 ^ (53 + e.toNat + (-d).toNat) := by
    have h₁ := Nat.mul_le_mul_right (down e) hd
    have h₂ := Nat.mul_lt_mul_of_pos_right he (down_pos d)
    rw [Nat.pow_add, Nat.pow_add, Nat.pow_add, Nat.pow_add]
    calc 2 ^ 52 * 2 ^ d.toNat * 2 ^ (-e).toNat ≤ k * down d * down e := h₁
      _ = k * down e * down d := Nat.mul_right_comm ..
      _ < 2 ^ 53 * up e * down d := h₂
  have := (Nat.pow_lt_pow_iff_right (by decide)).mp hlt
  omega

/-! ## Exponents -/

theorem exponentFor_one {k : Nat} (hk : k ≠ 0) : exponentFor k 1 = (Nat.log2 k : Int) - 52 := by
  have hlow := Nat.log2_self_le hk
  have hone : Nat.log2 1 = 0 := rfl
  have hfront : 2 ^ 53 * (1 * up (Nat.log2 k - 53)) ≤ k * down (Nat.log2 k - 53) := by
    rw [Nat.one_mul, up, down, ← Nat.pow_add]
    refine Nat.le_trans (Nat.le_of_eq ?_) (Nat.mul_le_mul_right _ hlow)
    rw [← Nat.pow_add]
    congr 1
    omega
  have hquotient := (Nat.le_div_iff_mul_le (Nat.mul_pos one_pos (up_pos _))).mpr hfront
  rw [exponentFor, hone, Int.ofNat_zero, Int.sub_zero, scaled_eq,
    if_neg (by rw [Nat.pow_eq]; exact Nat.not_lt.mpr hquotient), minExponent]
  omega

theorem le_scaled {k : Nat} (hk : k ≠ 0) :
    2 ^ 52 * up (Nat.log2 k - 52) ≤ k * down (Nat.log2 k - 52) := by
  refine Nat.le_trans (Nat.le_of_eq ?_) (Nat.mul_le_mul_right _ (Nat.log2_self_le hk))
  rw [up, down, ← Nat.pow_add, ← Nat.pow_add]
  congr 1
  omega

theorem scaled_lt (k : Nat) :
    k * down (Nat.log2 k - 52) < 2 ^ 53 * up (Nat.log2 k - 52) := by
  refine Nat.lt_of_lt_of_le (Nat.mul_lt_mul_of_pos_right Nat.lt_log2_self (down_pos _)) ?_
  rw [up, down, ← Nat.pow_add, ← Nat.pow_add]
  refine Nat.le_of_eq ?_
  congr 1
  omega

/-- A comparison with `a * 2 ^ e` is one with `2 * a * 2 ^ (e - 1)`. -/
theorem scaled_pred_le_iff (a b k : Nat) (e : Int) :
    a * up e ≤ b * (k * down e) ↔ 2 * (a * up (e - 1)) ≤ b * (k * down (e - 1)) := by
  have hleft : a * up e * down (e - 1) = 2 * (a * up (e - 1)) * down e := by
    rw [Nat.mul_assoc, up_mul_down_pred]
    ring
  have hright : b * (k * down e) * down (e - 1) = b * (k * down (e - 1)) * down e := by ring
  rw [← Nat.mul_le_mul_right_iff (down_pos (e - 1)), hleft, hright,
    Nat.mul_le_mul_right_iff (down_pos e)]

/-! ## The interval of a double -/

/-- The integer `k` lies in the interval of the numbers that round to `m * 2 ^ e`. It reaches from
    `below` quarters of `2 ^ e` in front to two quarters behind, and has its ends if `m` is even. -/
def Near (m below : Nat) (e : Int) (k : Nat) : Prop :=
  if m % 2 = 0 then 4 * (m * up e) ≤ 4 * (k * down e) + below * up e ∧
    4 * (k * down e) ≤ 4 * (m * up e) + 2 * up e
  else 4 * (m * up e) < 4 * (k * down e) + below * up e ∧
    4 * (k * down e) < 4 * (m * up e) + 2 * up e
  deriving Decidable

/-- The quarters in front: the double before a power of two is nearer. -/
def quartersBelow (m : Nat) : Nat :=
  if m = 2 ^ 52 then 1 else 2

theorem quartersBelow_pos (m : Nat) : 0 < quartersBelow m := by
  rw [quartersBelow]
  split <;> decide

/-- An integer keeps its exponent, or its significand is rounded up to the next power of two. -/
theorem ofRatio_eq_finite_iff {k m : Nat} {e : Int} (hk : k ≠ 0) (negative : Bool) :
    ofRatio negative k 1 = finite negative m e ↔ e ≤ maxExponent ∧
      (m ≠ 2 ^ 53 ∧ e = Nat.log2 k - 52 ∧ Nearest (k * down e) (up e) m ∨
        m = 2 ^ 52 ∧ e - 1 = Nat.log2 k - 52 ∧
          Nearest (k * down (e - 1)) (up (e - 1)) (2 ^ 53)) := by
  have hround : ∀ {d : Int} {r : Nat}, roundHalfEven (k * down d) (up d) = r ↔
      Nearest (k * down d) (up d) r := roundHalfEven_eq_iff (up_pos _)
  rw [ofRatio, if_neg (by simp [hk]), exponentFor_one hk]
  dsimp only
  rw [scaled_eq, Nat.one_mul, Nat.pow_eq, Nat.pow_eq]
  by_cases hcarried : roundHalfEven (k * down (Nat.log2 k - 52)) (up (Nat.log2 k - 52)) = 2 ^ 53
  · rw [if_pos hcarried, if_pos hcarried]
    constructor
    · intro h
      split at h
      · cases h
      · next hle =>
        simp only [finite.injEq, true_and] at h
        obtain ⟨rfl, rfl⟩ := h
        rw [Int.add_sub_cancel]
        exact ⟨Int.not_lt.mp hle, .inr ⟨rfl, rfl, hround.mp hcarried⟩⟩
    · rintro ⟨hle, ⟨hne, rfl, hnear⟩ | ⟨rfl, heq, -⟩⟩
      · exact absurd ((hround.mpr hnear).symm.trans hcarried) hne
      · rw [← heq, Int.sub_add_cancel, if_neg (Int.not_lt.mpr hle)]
  · rw [if_neg hcarried, if_neg hcarried]
    constructor
    · intro h
      split at h
      · cases h
      · next hle =>
        simp only [finite.injEq, true_and] at h
        obtain ⟨rfl, rfl⟩ := h
        exact ⟨Int.not_lt.mp hle, .inl ⟨hcarried, rfl, hround.mp rfl⟩⟩
    · rintro ⟨hle, ⟨-, rfl, hnear⟩ | ⟨-, heq, hnear⟩⟩
      · rw [hround.mpr hnear, if_neg (Int.not_lt.mpr hle)]
      · rw [heq] at hnear
        exact absurd (hround.mpr hnear) hcarried

section Interval

variable {k m : Nat} {e : Int}

/-- In front of a power of two the interval is shorter. -/
theorem quartersBelow_cases (hlow : 2 ^ 52 ≤ m) (e : Int) :
    m = 2 ^ 52 ∧ m * up e = 2 ^ 52 * up e ∧ quartersBelow m = 1 ∨
      2 ^ 52 * up e + up e ≤ m * up e ∧ quartersBelow m = 2 := by
  by_cases hm : m = 2 ^ 52
  · exact .inl ⟨hm, by rw [hm], if_pos hm⟩
  · have hmul : (2 ^ 52 + 1) * up e ≤ m * up e := Nat.mul_le_mul_right _ (by omega)
    rw [Nat.add_mul, Nat.one_mul] at hmul
    exact .inr ⟨hmul, if_neg hm⟩

/-- Among the numbers with the same exponent, those in the interval are those to which the
    significand is nearest. -/
theorem near_iff_nearest (hlow : 2 ^ 52 ≤ m) (hfull : 2 ^ 52 * up e ≤ k * down e) :
    Near m (quartersBelow m) e k ↔ Nearest (k * down e) (up e) m := by
  rw [Near, Nearest, Nat.mul_assoc]
  rcases quartersBelow_cases hlow e with ⟨-, hm, hbelow⟩ | ⟨hm, hbelow⟩
  · rw [hbelow, hm]
    split <;> omega
  · rw [hbelow]
    split <;> omega

/-- A number below a power of two is in the interval of that power if its significand, with one
    more binary digit, is rounded up to it. -/
theorem near_iff_carried (hm : m = 2 ^ 52) (hshort : k * down e < 2 ^ 52 * up e) :
    Near m (quartersBelow m) e k ↔ Nearest (k * down (e - 1)) (up (e - 1)) (2 ^ 53) := by
  have hfront := scaled_pred_le_iff (2 ^ 54 - 1) 4 k e
  have hbehind := scaled_pred_le_iff (2 ^ 52) 1 k e
  have heven : m % 2 = 0 := by omega
  rw [Near, if_pos heven, quartersBelow, if_pos hm, hm, Nearest, if_pos (by decide)]
  omega

/-- A number in the interval is below the next power of two. -/
theorem Near.scaled_lt (h : Near m (quartersBelow m) e k) (hhigh : m < 2 ^ 53) :
    k * down e < 2 ^ 53 * up e := by
  have hup := up_pos e
  have hmul : (m + 1) * up e ≤ 2 ^ 53 * up e := Nat.mul_le_mul_right _ hhigh
  rw [Nat.add_mul, Nat.one_mul] at hmul
  rw [Near] at h
  split at h <;> omega

/-- Only the interval of a power of two has numbers with a lower exponent. -/
theorem Near.eq_of_lt (h : Near m (quartersBelow m) e k) (hlow : 2 ^ 52 ≤ m)
    (hshort : k * down e < 2 ^ 52 * up e) : m = 2 ^ 52 := by
  rcases quartersBelow_cases hlow e with ⟨hm, -, -⟩ | ⟨hm, hbelow⟩
  · exact hm
  · rw [Near, hbelow] at h
    split at h <;> omega

/-- An integer rounds to a double with all its binary digits if and only if it lies in the
    interval. -/
theorem ofRatio_eq_iff (hk : k ≠ 0) (hlow : 2 ^ 52 ≤ m) (hhigh : m < 2 ^ 53)
    (he : e ≤ maxExponent) (negative : Bool) :
    ofRatio negative k 1 = finite negative m e ↔ Near m (quartersBelow m) e k := by
  have hle := le_scaled hk
  have hlt := scaled_lt k
  have hpred := scaled_pred_le_iff (2 ^ 52) 1 k e
  rw [ofRatio_eq_finite_iff hk]
  constructor
  · rintro ⟨-, ⟨-, heq, hnear⟩ | ⟨hm, heq, hnear⟩⟩
    · rw [← heq] at hle
      exact (near_iff_nearest hlow hle).mpr hnear
    · rw [← heq] at hlt
      exact (near_iff_carried hm (by omega)).mpr hnear
  · intro hnear
    have hbound := hnear.scaled_lt hhigh
    refine ⟨he, ?_⟩
    by_cases hfull : 2 ^ 52 * up e ≤ k * down e
    · have heq : e = Nat.log2 k - 52 :=
        Int.le_antisymm (le_of_scaled hfull hlt) (le_of_scaled hle hbound)
      exact .inl ⟨Nat.ne_of_lt hhigh, heq, (near_iff_nearest hlow hfull).mp hnear⟩
    · have hm := hnear.eq_of_lt hlow (Nat.lt_of_not_le hfull)
      have hnear' := (near_iff_carried hm (Nat.lt_of_not_le hfull)).mp hnear
      have hfront : 2 ^ 52 * up (e - 1) ≤ k * down (e - 1) := by
        rw [Nearest, if_pos (by decide)] at hnear'
        have := up_pos (e - 1)
        omega
      have heq : e - 1 = Nat.log2 k - 52 :=
        Int.le_antisymm (le_of_scaled hfront hlt) (le_of_scaled hle (by omega))
      exact .inr ⟨hm, heq, hnear'⟩

theorem Near.of_eq (hlow : 2 ^ 52 ≤ m) (h : m * up e = k * down e) :
    Near m (quartersBelow m) e k := by
  have hup := up_pos e
  rw [Near, h]
  rcases quartersBelow_cases hlow e with ⟨-, -, hbelow⟩ | ⟨-, hbelow⟩ <;> rw [hbelow] <;>
    split <;> omega

/-- What lies strictly between the ends is in the interval. -/
theorem Near.of_lt {below : Nat} (hfront : 4 * (m * up e) < 4 * (k * down e) + below * up e)
    (hbehind : 4 * (k * down e) < 4 * (m * up e) + 2 * up e) : Near m below e k := by
  rw [Near]
  split
  · exact ⟨Nat.le_of_lt hfront, Nat.le_of_lt hbehind⟩
  · exact ⟨hfront, hbehind⟩

/-- The interval around an integer has no gaps. -/
theorem Near.of_between (hm : m * up e = k * down e) {i j : Nat}
    (h : Near m (quartersBelow m) e j) (hij : j ≤ i ∧ i ≤ k ∨ k ≤ i ∧ i ≤ j) :
    Near m (quartersBelow m) e i := by
  have hdown : ∀ {a b : Nat}, a ≤ b → a * down e ≤ b * down e := Nat.mul_le_mul_right _
  have hbelow := Nat.mul_pos (quartersBelow_pos m) (up_pos e)
  have hup := up_pos e
  have hbetween : j * down e ≤ i * down e ∧ i * down e ≤ k * down e ∨
      k * down e ≤ i * down e ∧ i * down e ≤ j * down e :=
    hij.imp (fun h => ⟨hdown h.1, hdown h.2⟩) fun h => ⟨hdown h.1, hdown h.2⟩
  rw [Near, hm] at h ⊢
  split at h
  · next heven => rw [if_pos heven]; omega
  · next hodd => rw [if_neg hodd]; omega

/-- The interval is narrow. -/
theorem Near.le_and_le {j : Nat} (hlow : 2 ^ 52 ≤ m) (hm : m * up e = k * down e)
    (h : Near m (quartersBelow m) e j) :
    2 ^ 53 * k ≤ 2 ^ 53 * j + k ∧ 2 ^ 53 * j ≤ 2 ^ 53 * k + k := by
  have hup := up_pos e
  have hfull : 2 ^ 52 * up e ≤ k * down e := hm ▸ Nat.mul_le_mul_right _ hlow
  have hends : 4 * (k * down e) ≤ 4 * (j * down e) + 2 * up e ∧
      4 * (j * down e) ≤ 4 * (k * down e) + 2 * up e := by
    rw [Near, hm] at h
    rcases quartersBelow_cases hlow e with ⟨-, -, hbelow⟩ | ⟨-, hbelow⟩ <;> rw [hbelow] at h <;>
      split at h <;> omega
  constructor <;> refine Nat.le_of_mul_le_mul_right (c := down e) ?_ (down_pos e) <;>
    rw [Nat.add_mul, Nat.mul_assoc, Nat.mul_assoc] <;> omega

theorem Near.pos {j : Nat} (h : Near m (quartersBelow m) e j) (hlow : 2 ^ 52 ≤ m)
    (hm : m * up e = k * down e) (hk : 0 < k) : 0 < j := by
  have := (h.le_and_le hlow hm).1
  omega

end Interval

/-! ## Doubles that are integers -/

/-- Significand and exponent are in their ranges. -/
def Valid : Double → Prop
  | finite _ m e =>
    m < 2 ^ 53 ∧ minExponent ≤ e ∧ e ≤ maxExponent ∧ (2 ^ 52 ≤ m ∨ e = minExponent)
  | infinite _ => True
  | nan => True

instance : DecidablePred Valid
  | finite .. => inferInstanceAs (Decidable (_ ∧ _))
  | infinite _ => .isTrue trivial
  | nan => .isTrue trivial

theorem toInt?_finite_eq_some {negative : Bool} {m : Nat} {e : Int} {n : Int}
    (h : toInt? (finite negative m e) = some n) :
    ∃ k : Nat, m * up e = k * down e ∧ n = if negative then -(k : Int) else k := by
  rw [toInt?] at h
  dsimp only at h
  split at h
  · next he =>
    refine ⟨m * up e, ?_, (Option.some.inj h).symm⟩
    rw [down, show (-e).toNat = 0 by omega, Nat.pow_zero, Nat.mul_one]
  · next he =>
    split at h
    · next hmod =>
      refine ⟨m / down e, ?_, (Option.some.inj h).symm⟩
      rw [up, show e.toNat = 0 by omega, Nat.pow_zero, Nat.mul_one]
      exact (Nat.div_mul_cancel (Nat.dvd_of_mod_eq_zero hmod)).symm
    · cases h

/-- A double that is an integer. -/
theorem toInt?_finite {negative : Bool} {m k : Nat} {e : Int} (h : m * up e = k * down e) :
    toInt? (finite negative m e) = some (if negative then -(k : Int) else k) := by
  rw [toInt?]
  dsimp only
  split
  · next he =>
    rw [down, show (-e).toNat = 0 by omega, Nat.pow_zero, Nat.mul_one] at h
    rw [← h]
    rfl
  · next he =>
    rw [up, show e.toNat = 0 by omega, Nat.pow_zero, Nat.mul_one] at h
    have hdiv : m / Nat.pow 2 (-e).toNat = k := by
      rw [h]
      exact Nat.mul_div_cancel k (down_pos e)
    have hmod : m % Nat.pow 2 (-e).toNat = 0 := by
      rw [h]
      exact Nat.mul_mod_left k (down e)
    rw [if_pos hmod, hdiv]

/-- The parts of a double that is an integer other than zero. -/
theorem Valid.exists_of_toInt? {x : Double} (hx : x.Valid) {n : Int} (hn : x.toInt? = some n)
    (hzero : n ≠ 0) :
    ∃ m e, x = finite (n < 0) m e ∧ 2 ^ 52 ≤ m ∧ m < 2 ^ 53 ∧ minExponent < e ∧ e ≤ maxExponent ∧
      m * up e = n.natAbs * down e := by
  cases x with
  | infinite _ => cases hn
  | nan => cases hn
  | finite negative m e =>
    obtain ⟨hhigh, hmin, hmax, hlow⟩ := hx
    obtain ⟨k, hk, hsign⟩ := toInt?_finite_eq_some hn
    have habs : n.natAbs = k := by
      rw [hsign]
      split <;> omega
    have hneg : negative = decide (n < 0) := by
      cases negative <;> simp at hsign <;> simp <;> omega
    -- The least exponent belongs to numbers with a fraction.
    have hmin' : e ≠ minExponent := by
      rintro rfl
      have hone : up minExponent = 1 := rfl
      have hpow : 2 ^ 53 ≤ down minExponent := Nat.pow_le_pow_right (by decide) (by decide)
      have hmul : 1 * down minExponent ≤ k * down minExponent :=
        Nat.mul_le_mul_right _ (by omega)
      rw [hone] at hk
      omega
    refine ⟨m, e, by rw [hneg], hlow.resolve_right hmin', hhigh, by omega, hmax, ?_⟩
    rw [habs, hk]

/-- The sign of a quotient stays. -/
theorem eq_of_ofRatio_eq_finite {negative negative' : Bool} {num den m : Nat} {e : Int}
    (h : ofRatio negative num den = finite negative' m e) : negative = negative' := by
  rw [ofRatio] at h
  dsimp only at h
  split_ifs at h <;> exact (finite.inj h).1

/-- An integer rounds to a double that is an integer other than zero if it has the same sign and
    lies in the interval. -/
theorem ofInt_eq_iff {m : Nat} {e n j : Int} (hn : n ≠ 0) (hlow : 2 ^ 52 ≤ m) (hhigh : m < 2 ^ 53)
    (he : e ≤ maxExponent) (hm : m * up e = n.natAbs * down e) :
    ofInt j = finite (n < 0) m e ↔ (j < 0 ↔ n < 0) ∧ Near m (quartersBelow m) e j.natAbs := by
  by_cases hj : j = 0
  · refine iff_of_false ?_ fun h => ?_
    · rw [hj]
      intro h
      have := (finite.inj h).2.1
      omega
    · have := (h.2.le_and_le hlow hm).1
      omega
  · rw [ofInt]
    constructor
    · intro h
      have hsign := eq_of_ofRatio_eq_finite h
      rw [← hsign, ofRatio_eq_iff (by omega) hlow hhigh he] at h
      exact ⟨decide_eq_decide.mp hsign, h⟩
    · rintro ⟨hsign, hnear⟩
      rw [decide_eq_decide.mpr hsign]
      exact (ofRatio_eq_iff (by omega) hlow hhigh he _).mpr hnear

/-- Zero without its sign. -/
def unsigned (x : Double) : Double :=
  if x = zero true then zero false else x

/-- An integer that is a double rounds to itself. -/
theorem Valid.ofInt_eq {x : Double} (hx : x.Valid) {n : Int} (hn : x.toInt? = some n) :
    ofInt n = x.unsigned := by
  by_cases hzero : n = 0
  · cases x with
    | infinite _ => cases hn
    | nan => cases hn
    | finite negative m e =>
      obtain ⟨-, -, -, hlow⟩ := hx
      obtain ⟨k, hk, hsign⟩ := toInt?_finite_eq_some hn
      have hk' : k = 0 := by
        rw [hzero] at hsign
        split at hsign <;> omega
      have hm : m = 0 := by
        rw [hk', Nat.zero_mul] at hk
        exact (Nat.mul_eq_zero.mp hk).resolve_right (Nat.ne_of_gt (up_pos e))
      obtain rfl := hlow.resolve_left (by omega)
      rw [hzero, hm]
      cases negative <;> rfl
  · obtain ⟨m, e, rfl, hlow, hhigh, -, hmax, hm⟩ := hx.exists_of_toInt? hn hzero
    rw [unsigned, if_neg (by simp only [zero, finite.injEq]; omega)]
    exact (ofInt_eq_iff hzero hlow hhigh hmax hm).mpr ⟨Iff.rfl, .of_eq hlow hm⟩

theorem ofInt_natCast (n : Nat) : ofInt n = ofRatio false n 1 := by
  rw [ofInt, decide_eq_false (by omega), Int.natAbs_natCast]

/-- Integers of at most 53 binary digits are doubles. -/
theorem valid_ofInt {n : Int} (h : n.natAbs < 2 ^ 53) :
    (ofInt n).Valid ∧ (ofInt n).toInt? = some n := by
  by_cases hzero : n = 0
  · have hnone : 0 * up minExponent = 0 * down minExponent := by simp
    have hofInt : ofInt 0 = finite false 0 minExponent := rfl
    rw [hzero, hofInt, toInt?_finite hnone]
    exact ⟨⟨by decide, le_rfl, by decide, .inr rfl⟩, rfl⟩
  · have hlog : Nat.log2 n.natAbs ≤ 52 :=
      Nat.le_of_lt_succ ((Nat.log2_lt (by omega)).mpr h)
    have hup : up ((Nat.log2 n.natAbs : Int) - 52) = 1 := by
      rw [up, show ((Nat.log2 n.natAbs : Int) - 52).toNat = 0 by omega, Nat.pow_zero]
    have hlow := le_scaled (k := n.natAbs) (by omega)
    have hhigh := scaled_lt n.natAbs
    rw [hup, Nat.mul_one] at hlow hhigh
    have hm : n.natAbs * down (Nat.log2 n.natAbs - 52) * up (Nat.log2 n.natAbs - 52) =
        n.natAbs * down (Nat.log2 n.natAbs - 52) := by
      rw [hup, Nat.mul_one]
    have hmax : (Nat.log2 n.natAbs : Int) - 52 ≤ maxExponent := by
      rw [maxExponent]
      omega
    have heq := (ofInt_eq_iff (j := n) hzero hlow hhigh hmax hm).mpr ⟨Iff.rfl, .of_eq hlow hm⟩
    rw [heq, toInt?_finite hm]
    refine ⟨⟨hhigh, ?_, hmax, .inl hlow⟩, congrArg some ?_⟩
    · rw [minExponent]
      omega
    · by_cases hneg : n < 0
      · rw [if_pos (decide_eq_true hneg)]
        omega
      · rw [if_neg (by simpa using hneg)]
        omega

/-! ## The number of a double -/

/-- The number that a double stands for, if it is finite. -/
def value? : Double → Option ℚ
  | finite negative significand exponent =>
    some ((if negative then -1 else 1) * significand * 2 ^ exponent)
  | infinite _ => none
  | nan => none

theorem two_zpow_eq (e : Int) : (2 : ℚ) ^ e = up e / down e := by
  obtain ⟨k, rfl | rfl⟩ := Int.eq_nat_or_neg e
  · simp [up, down]
  · simp [up, down]

theorem value?_of_toInt? {x : Double} {n : Int} (h : x.toInt? = some n) :
    x.value? = some (n : ℚ) := by
  cases x with
  | infinite negative => cases h
  | nan => cases h
  | finite negative m e =>
    obtain ⟨k, hk, rfl⟩ := toInt?_finite_eq_some h
    have hdown : (down e : ℚ) ≠ 0 := Nat.cast_ne_zero.mpr (Nat.ne_of_gt (down_pos e))
    have hvalue : (m : ℚ) * 2 ^ e = k := by
      rw [two_zpow_eq, ← mul_div_assoc, div_eq_iff hdown]
      exact_mod_cast hk
    rw [value?, mul_assoc, hvalue]
    cases negative <;> simp

/-- A double is an integer if and only if the number that it stands for is that integer. -/
theorem toInt?_eq_some_iff {x : Double} {n : Int} :
    x.toInt? = some n ↔ x.value? = some (n : ℚ) := by
  refine ⟨value?_of_toInt?, fun h => ?_⟩
  cases x with
  | infinite negative => cases h
  | nan => cases h
  | finite negative m e =>
    have hdown : (down e : ℚ) ≠ 0 := Nat.cast_ne_zero.mpr (Nat.ne_of_gt (down_pos e))
    have hvalue := Option.some.inj h
    rw [two_zpow_eq, ← mul_div_assoc, div_eq_iff hdown] at hvalue
    have hint : (if negative then -1 else 1) * (m : Int) * up e = n * down e := by
      exact_mod_cast hvalue
    have habs : m * up e = n.natAbs * down e := by
      have := congrArg Int.natAbs hint
      cases negative <;> simpa [Int.natAbs_mul] using this
    -- An integer with the value of the double is the one that is read.
    have hread : toInt? (finite negative m e) = _ := toInt?_finite habs
    have heq := (value?_of_toInt? hread).symm.trans h
    rw [hread, Int.cast_injective (Option.some.inj heq)]

end Stepflow.Double
