import Mathlib
import Stepflow.Flow.Chart
import Stepflow.Proofs.Digits
import Stepflow.Proofs.Rounding

/-!
# The labels of integers

A double that is an integer is written with the digits of the integer that ends with the most zeros
among those that round to it. The number of a sequence has all digits, but only 64 bits.

* `Double.exists_decimalPlaces`: the length of an integer.
* `Double.two_mul_mod_ne`: two multiples of a power of ten are not equally near.
* `Double.neighbour?_eq`: which multiple of a power of ten is taken.
* `Double.exists_shortestFrom`: the search ends at the first exponent with a neighbour.
* `Double.neighbour?_ne_none`: seventeen digits are enough.

Results:
* `Double.exists_shortest`: when the shortest digits of an integer are its own.
* `Double.Valid.exists_label`: the label of an integer is the text of an integer.
* `Flow.label_eq_stepId_iff`: when a label is the text of the number of a sequence.
-/

namespace Stepflow

/-! ## Decimal digits -/

/-- Zeros at the end multiply by a power of ten. -/
theorem toDigits_mul_pow {n : Nat} (hn : 0 < n) (k : Nat) :
    Nat.toDigits 10 (n * 10 ^ k) = Nat.toDigits 10 n ++ List.replicate k '0' := by
  induction k with
  | zero => simp
  | succ k ih =>
    have hpos : 0 < n * 10 ^ k := Nat.mul_pos hn (Nat.pow_pos (by decide))
    have hlast := Nat.toDigits_append_toDigits (b := 10) (by decide) hpos (d := 0) (by decide)
    rw [Nat.add_zero, Nat.toDigits_zero, ih] at hlast
    rw [Nat.pow_succ, ← Nat.mul_assoc, Nat.mul_comm _ 10, ← hlast, List.append_assoc,
      List.replicate_succ']

namespace Double

theorem lt_pow_decimalLength (n : Nat) : n < 10 ^ decimalLength n :=
  (Nat.length_toDigits_le_iff (by decide) Nat.length_toDigits_pos).mp le_rfl

theorem pow_le_of_lt_decimalLength {n k : Nat} (hn : 0 < n) (hk : k < decimalLength n) :
    10 ^ k ≤ n := by
  rcases Nat.eq_zero_or_pos k with rfl | hpos
  · exact hn
  · by_contra hlt
    exact Nat.not_le.mpr hk
      ((Nat.length_toDigits_le_iff (by decide) hpos).mpr (Nat.lt_of_not_le hlt))

theorem decimal_scaled (num den p : Nat) :
    Decimal.scaled num den p = (num, den * 10 ^ p) := by
  rw [Decimal.scaled, if_pos (Int.natCast_nonneg p), Int.toNat_natCast, Nat.pow_eq]

/-- The decimal places of a quotient that is an integer. -/
theorem exists_decimalPlaces {k den : Nat} (hk : 0 < k) (hden : 0 < den) :
    ∃ l : Nat, decimalPlaces (k * den) den = (l + 1 : Nat) ∧ 10 ^ l ≤ k ∧ k < 10 ^ (l + 1) := by
  have hnum : k * den < 10 ^ decimalLength (k * den) := lt_pow_decimalLength _
  have hden' : den < 10 ^ decimalLength den := lt_pow_decimalLength _
  have hdenpos : 0 < decimalLength den := Nat.length_toDigits_pos
  have hle : decimalLength den ≤ decimalLength (k * den) :=
    (Nat.length_toDigits_le_iff (by decide) Nat.length_toDigits_pos).mpr
      (Nat.lt_of_le_of_lt (Nat.le_mul_of_pos_left den hk) hnum)
  obtain ⟨j, hj⟩ := Nat.exists_eq_add_of_le hle
  have hhigh : k < 10 ^ (j + 1) := by
    have hfront : 10 ^ (decimalLength den - 1) ≤ den :=
      pow_le_of_lt_decimalLength hden (by omega)
    refine Nat.lt_of_mul_lt_mul_right (a := 10 ^ (decimalLength den - 1)) ?_
    calc k * 10 ^ (decimalLength den - 1) ≤ k * den := Nat.mul_le_mul_left k hfront
      _ < 10 ^ decimalLength (k * den) := hnum
      _ = 10 ^ (j + 1) * 10 ^ (decimalLength den - 1) := by
        rw [hj, ← Nat.pow_add]
        congr 1
        omega
  have hlow : ∀ i < j, 10 ^ i ≤ k := by
    intro i hi
    refine Nat.le_of_lt (Nat.lt_of_mul_lt_mul_right (a := 10 ^ decimalLength den) ?_)
    calc 10 ^ i * 10 ^ decimalLength den = 10 ^ (i + decimalLength den) := (Nat.pow_add ..).symm
      _ ≤ k * den := pow_le_of_lt_decimalLength (Nat.mul_pos hk hden) (by omega)
      _ < k * 10 ^ decimalLength den := Nat.mul_lt_mul_of_pos_left hden' hk
  have hplaces : decimalPlaces (k * den) den = if 10 ^ j ≤ k then (j : Int) + 1 else j := by
    have hdiff : ((decimalLength den + j : Nat) : Int) - decimalLength den = (j : Nat) := by omega
    rw [decimalPlaces, hj, hdiff, decimal_scaled]
    dsimp only
    rw [Nat.mul_comm den]
    exact if_congr (Nat.mul_le_mul_right_iff hden) rfl rfl
  rw [hplaces]
  split
  · next h => exact ⟨j, by omega, h, hhigh⟩
  · next h =>
    have hjpos : 0 < j := by
      rcases Nat.eq_zero_or_pos j with rfl | hpos
      · exact absurd hk h
      · exact hpos
    refine ⟨j - 1, by omega, hlow _ (by omega), ?_⟩
    rw [Nat.sub_add_cancel hjpos]
    exact Nat.lt_of_not_le h

/-! ## Neighbours -/

section Integer

variable {m k j : Nat} {e : Int} {tie : Tie}

/-- The comparisons of `neighbour?` ask for the interval. -/
theorem inside_eq (hlow : 2 ^ 52 ≤ m) (d p : Nat) :
    (if m % 2 = 0 then
      decide ((4 * m - quartersBelow m) * up e ≤ d * (4 * down e * 10 ^ p)) &&
        decide (d * (4 * down e * 10 ^ p) ≤ (4 * m + 2) * up e)
    else
      decide ((4 * m - quartersBelow m) * up e < d * (4 * down e * 10 ^ p)) &&
        decide (d * (4 * down e * 10 ^ p) < (4 * m + 2) * up e)) =
      decide (Near m (quartersBelow m) e (d * 10 ^ p)) := by
  have hbelow : quartersBelow m * up e ≤ 4 * (m * up e) := by
    rw [← Nat.mul_assoc]
    refine Nat.mul_le_mul_right _ ?_
    rw [quartersBelow]
    split <;> omega
  have hat : d * (4 * down e * 10 ^ p) = 4 * (d * 10 ^ p * down e) := by ring
  simp only [Near, Nat.sub_mul, Nat.add_mul, Nat.mul_assoc 4 m, hat, Bool.and_eq_decide,
    decide_eq_true_eq]
  split <;> rw [decide_eq_decide] <;> omega

/-- How far the neighbours are. -/
theorem gaps_eq (hm : m * up e = k * down e) (p : Nat) :
    4 * m * up e - k / 10 ^ p * (4 * down e * 10 ^ p) = 4 * down e * (k % 10 ^ p) ∧
      (k / 10 ^ p + 1) * (4 * down e * 10 ^ p) - 4 * m * up e =
        4 * down e * (10 ^ p - k % 10 ^ p) := by
  have hvalue : 4 * m * up e =
      k / 10 ^ p * (4 * down e * 10 ^ p) + 4 * down e * (k % 10 ^ p) := by
    calc 4 * m * up e = 4 * (down e * k) := by rw [Nat.mul_assoc, hm, Nat.mul_comm k]
      _ = 4 * (down e * (10 ^ p * (k / 10 ^ p) + k % 10 ^ p)) := by rw [Nat.div_add_mod]
      _ = _ := by ring
  have hnext : (k / 10 ^ p + 1) * (4 * down e * 10 ^ p) =
      k / 10 ^ p * (4 * down e * 10 ^ p) + 4 * down e * 10 ^ p := by ring
  rw [hvalue, hnext, Nat.mul_sub]
  omega

/-- The neighbours of an integer are never equally near, if the one behind is in the interval: the
    integer would have fewer factors two than the power of two that the interval is as wide as. -/
theorem two_mul_mod_ne (hm : m * up e = k * down e) {p : Nat}
    (hbehind : Near m (quartersBelow m) e ((k / 10 ^ p + 1) * 10 ^ p)) :
    2 * (k % 10 ^ p) ≠ 10 ^ p := by
  intro htie
  have htwice : 2 * k = (2 * (k / 10 ^ p) + 1) * 10 ^ p := by
    have := Nat.div_add_mod' k (10 ^ p)
    rw [Nat.add_mul, Nat.mul_assoc]
    omega
  have hwide : 10 ^ p * down e ≤ up e := by
    have hnext : 2 * ((k / 10 ^ p + 1) * 10 ^ p * down e) = 2 * (k * down e) + 10 ^ p * down e := by
      calc 2 * ((k / 10 ^ p + 1) * 10 ^ p * down e)
          = ((2 * (k / 10 ^ p) + 1) * 10 ^ p + 10 ^ p) * down e := by ring
        _ = _ := by rw [← htwice]; ring
    rw [Near, hm] at hbehind
    split at hbehind <;> omega
  have hdvd : 2 ^ (e.toNat + 1) ∣ (2 * (k / 10 ^ p) + 1) * 5 ^ p * (2 ^ p * down e) := by
    refine ⟨m, ?_⟩
    calc (2 * (k / 10 ^ p) + 1) * 5 ^ p * (2 ^ p * down e)
        = (2 * (k / 10 ^ p) + 1) * (5 * 2) ^ p * down e := by rw [Nat.mul_pow]; ring
      _ = 2 * (m * up e) := by rw [← htwice, hm, Nat.mul_assoc]
      _ = 2 ^ (e.toNat + 1) * m := by rw [up, Nat.pow_succ]; ring
  have hodd : Odd ((2 * (k / 10 ^ p) + 1) * 5 ^ p) := .mul ⟨_, rfl⟩ (.pow (by decide))
  have htwo : 2 ^ (e.toNat + 1) ∣ 2 ^ p * down e :=
    ((Nat.coprime_two_left.mpr hodd).pow_left _).dvd_of_dvd_mul_left hdvd
  have hle : 2 * up e ≤ up e :=
    calc 2 * up e = 2 ^ (e.toNat + 1) := by rw [up, Nat.pow_succ, Nat.mul_comm]
      _ ≤ 2 ^ p * down e := Nat.le_of_dvd (Nat.mul_pos (Nat.two_pow_pos p) (down_pos e)) htwo
      _ ≤ 10 ^ p * down e := Nat.mul_le_mul_right _ (Nat.pow_le_pow_left (by decide) p)
      _ ≤ up e := hwide
  have := up_pos e
  omega

/-- The multiple of a power of ten in front of the integer, unless it is not in the interval or the
    one behind is and is nearer. -/
theorem neighbour?_eq (hlow : 2 ^ 52 ≤ m) (hm : m * up e = k * down e) (p : Nat) :
    neighbour? tie m (quartersBelow m) e p =
      if Near m (quartersBelow m) e (k / 10 ^ p * 10 ^ p) ∧
          (Near m (quartersBelow m) e ((k / 10 ^ p + 1) * 10 ^ p) →
            2 * (k % 10 ^ p) ≤ 10 ^ p) then
        some (k / 10 ^ p)
      else if Near m (quartersBelow m) e ((k / 10 ^ p + 1) * 10 ^ p) then some (k / 10 ^ p + 1)
      else none := by
  have hfloor : 4 * m * up e / (4 * down e * 10 ^ p) = k / 10 ^ p := by
    rw [Nat.mul_assoc, hm, Nat.mul_comm k, ← Nat.mul_assoc,
      Nat.mul_div_mul_left _ _ (Nat.mul_pos (by decide) (down_pos e))]
  have hscale : 0 < 4 * down e := Nat.mul_pos (by decide) (down_pos e)
  have hmod := Nat.mod_lt k (Nat.pow_pos (n := p) (by decide : 0 < 10))
  rw [neighbour?, scaled_neg, decimal_scaled]
  dsimp only
  rw [Nat.one_mul, hfloor, inside_eq hlow, inside_eq hlow, (gaps_eq hm p).1, (gaps_eq hm p).2]
  simp only [Nat.mul_left_cancel_iff hscale, Nat.mul_lt_mul_left hscale]
  by_cases hfront : Near m (quartersBelow m) e (k / 10 ^ p * 10 ^ p) <;>
    by_cases hbehind : Near m (quartersBelow m) e ((k / 10 ^ p + 1) * 10 ^ p)
  · have hne := two_mul_mod_ne hm hbehind
    have hgaps : k % 10 ^ p ≠ 10 ^ p - k % 10 ^ p := by omega
    have hnearer : k % 10 ^ p < 10 ^ p - k % 10 ^ p ↔ 2 * (k % 10 ^ p) ≤ 10 ^ p := by omega
    simp [hfront, hbehind, hgaps, hnearer, apply_ite some]
  all_goals simp [hfront, hbehind]

-- A fraction can be in the middle. There the rule decides.
example :
    shortest .up (2 ^ 52 + 1) (-2) = { digits := 11258999068426243, exponent := -1 } ∧
      shortest .even (2 ^ 52 + 1) (-2) = { digits := 11258999068426242, exponent := -1 } := by
  decide +kernel

/-- A neighbour lies in the interval, and it is the integer if that has enough zeros. -/
theorem near_of_neighbour? (hlow : 2 ^ 52 ≤ m) (hm : m * up e = k * down e) {p c : Nat}
    (h : neighbour? tie m (quartersBelow m) e p = some c) :
    Near m (quartersBelow m) e (c * 10 ^ p) ∧ (10 ^ p ∣ k → c * 10 ^ p = k) := by
  rw [neighbour?_eq hlow hm] at h
  split at h
  · next hfront =>
    obtain rfl := Option.some.inj h
    exact ⟨hfront.1, Nat.div_mul_cancel⟩
  · next hfront =>
    split at h
    · next hbehind =>
      obtain rfl := Option.some.inj h
      refine ⟨hbehind, fun hdvd => absurd ⟨?_, fun _ => ?_⟩ hfront⟩
      · rw [Nat.div_mul_cancel hdvd]
        exact .of_eq hlow hm
      · rw [Nat.mod_eq_zero_of_dvd hdvd]
        exact Nat.zero_le _
    · cases h

/-- Without a neighbour no multiple of the power of ten lies in the interval. -/
theorem not_near_of_neighbour? (hlow : 2 ^ 52 ≤ m) (hm : m * up e = k * down e) {p : Nat}
    (h : neighbour? tie m (quartersBelow m) e p = none) {j : Nat} (hdvd : 10 ^ p ∣ j) :
    ¬ Near m (quartersBelow m) e j := by
  intro hj
  obtain ⟨i, rfl⟩ := hdvd
  rw [Nat.mul_comm] at hj
  have hpos : 0 < 10 ^ p := Nat.pow_pos (by decide)
  have hfront : ¬ Near m (quartersBelow m) e (k / 10 ^ p * 10 ^ p) ∧
      ¬ Near m (quartersBelow m) e ((k / 10 ^ p + 1) * 10 ^ p) := by
    rw [neighbour?_eq hlow hm] at h
    split at h
    · cases h
    · next hfront =>
      split at h
      · cases h
      · next hbehind =>
        exact ⟨fun hnear => hfront ⟨hnear, fun hnext => absurd hnext hbehind⟩, hbehind⟩
  rcases Nat.lt_or_ge (k / 10 ^ p) i with hlt | hle
  · refine hfront.2 (hj.of_between hm (.inr ⟨?_, Nat.mul_le_mul_right _ hlt⟩))
    rw [Nat.mul_comm]
    exact Nat.le_of_lt (Nat.lt_mul_div_succ k hpos)
  · exact hfront.1 (hj.of_between hm (.inl ⟨Nat.mul_le_mul_right _ hle, Nat.div_mul_le_self ..⟩))

/-! ## The search -/

/-- If some number of digits among those to be tried has a neighbour, the search ends at the
    first. -/
theorem exists_shortestFrom {below : Nat} {places : Int} {fuel count n : Nat} (hcount : count ≤ n)
    (hfuel : n < count + fuel) (h : neighbour? tie m below e (places - n) ≠ none) :
    ∃ j c, count ≤ j ∧ j ≤ n ∧ neighbour? tie m below e (places - j) = some c ∧
      shortestFrom tie m below e places fuel count = { digits := c, exponent := places - j } ∧
      ∀ i, count ≤ i → i < j → neighbour? tie m below e (places - i) = none := by
  induction fuel generalizing count with
  | zero => omega
  | succ fuel ih =>
    rw [shortestFrom]
    cases hhere : neighbour? tie m below e (places - count) with
    | some c => exact ⟨count, c, le_rfl, hcount, hhere, rfl, fun i hi hlt => by omega⟩
    | none =>
      have hne : count ≠ n := by
        rintro rfl
        exact h hhere
      obtain ⟨j, c, hj, hjn, hc, heq, hbefore⟩ := ih (by omega : count + 1 ≤ n) (by omega)
      refine ⟨j, c, by omega, hjn, hc, heq, fun i hi hlt => ?_⟩
      rcases Nat.eq_or_lt_of_le hi with rfl | hi
      · exact hhere
      · exact hbefore i hi hlt

/-- The interval is so wide that it has an integer of seventeen digits with zeros behind them. -/
theorem neighbour?_ne_none (hlow : 2 ^ 52 ≤ m) (hhigh : m < 2 ^ 53) (hm : m * up e = k * down e)
    {p : Nat} (hp : 10 ^ (p + 16) ≤ k) : neighbour? tie m (quartersBelow m) e p ≠ none := by
  intro hnone
  have hfront := not_near_of_neighbour? hlow hm hnone (Nat.dvd_mul_left _ (k / 10 ^ p))
  have hbehind := not_near_of_neighbour? hlow hm hnone (Nat.dvd_mul_left _ (k / 10 ^ p + 1))
  have hup := up_pos e
  have hsum : m * up e = k / 10 ^ p * 10 ^ p * down e + k % 10 ^ p * down e := by
    rw [hm, ← Nat.add_mul, Nat.div_add_mod']
  have hnext : (k / 10 ^ p + 1) * 10 ^ p * down e =
      k / 10 ^ p * 10 ^ p * down e + 10 ^ p * down e := by ring
  have hmod : k % 10 ^ p * down e ≤ 10 ^ p * down e :=
    Nat.mul_le_mul_right _ (Nat.le_of_lt (Nat.mod_lt k (Nat.pow_pos (by decide))))
  have hwide : 10 ^ 16 * (10 ^ p * down e) ≤ m * up e := by
    rw [hm, ← Nat.mul_assoc, ← Nat.pow_add, Nat.add_comm 16]
    exact Nat.mul_le_mul_right _ hp
  have hmul : (m + 1) * up e ≤ 2 ^ 53 * up e := Nat.mul_le_mul_right _ hhigh
  rw [Nat.add_mul, Nat.one_mul] at hmul
  -- Half the gap between two multiples is shorter than the interval on either side of the integer.
  have hwidth : 2 * (10 ^ p * down e) < quartersBelow m * up e ∧
      quartersBelow m * up e ≤ 2 * up e := by
    rcases quartersBelow_cases hlow e with ⟨-, hfull, hbelow⟩ | ⟨-, hbelow⟩ <;>
      rw [hbelow] <;> omega
  rcases Nat.le_total (2 * (k % 10 ^ p * down e)) (10 ^ p * down e) with hle | hle
  · exact hfront (.of_lt (by omega) (by omega))
  · exact hbehind (.of_lt (by omega) (by omega))

/-- If the integer ends with as many zeros as the search found, then with as many as any other
    integer in the interval. -/
theorem dvd_of_near (hlow : 2 ^ 52 ≤ m) (hm : m * up e = k * down e) {l p i : Nat}
    (hpos : 0 < k) (hl : k < 10 ^ (l + 1)) (hp : p ≤ l)
    (hnone : ∀ i : Nat, p < i → i ≤ l → neighbour? tie m (quartersBelow m) e i = none)
    (hk : 10 ^ p ∣ k) (hi : 10 ^ i ∣ j) (hj : Near m (quartersBelow m) e j) : 10 ^ i ∣ k := by
  have hmiss : ∀ {i : Nat}, p < i → i ≤ l → ¬ 10 ^ i ∣ j :=
    fun hpi hil hdvd => not_near_of_neighbour? hlow hm (hnone _ hpi hil) hdvd hj
  by_cases hip : i ≤ p
  · exact (Nat.pow_dvd_pow 10 hip).trans hk
  · by_cases hil : i ≤ l
    · exact absurd hi (hmiss (Nat.lt_of_not_le hip) hil)
    · -- An integer with more zeros than `k` has digits is too far away.
      have hdvd : 10 ^ l ∣ j := (Nat.pow_dvd_pow 10 (by omega)).trans hi
      obtain rfl : p = l := by
        by_contra hne
        exact hmiss (by omega) le_rfl hdvd
      obtain ⟨hfront, hbehind⟩ := hj.le_and_le hlow hm
      have hlarge : 10 ^ (p + 1) ≤ j :=
        Nat.le_of_dvd (by omega) ((Nat.pow_dvd_pow 10 (by omega)).trans hi)
      have hgap : 10 ^ p ≤ j - k := Nat.le_of_dvd (by omega) (Nat.dvd_sub hdvd hk)
      rw [Nat.pow_succ] at hlarge hl
      omega

/-- The shortest digits of an integer. They are its own digits if and only if no other integer in
    the interval ends with more zeros. -/
theorem exists_shortest (hlow : 2 ^ 52 ≤ m) (hhigh : m < 2 ^ 53) (hmin : minExponent < e)
    (hm : m * up e = k * down e) (hk : 0 < k) :
    ∃ c p : Nat, shortest tie m e = Decimal.stripZeros 17 { digits := c, exponent := p } ∧
      Near m (quartersBelow m) e (c * 10 ^ p) ∧
      (c * 10 ^ p = k ↔ ∀ i j, 10 ^ i ∣ j → Near m (quartersBelow m) e j → 10 ^ i ∣ k) ∧
      (10 ^ 17 ≤ k → 0 < p) := by
  obtain ⟨l, hplaces, hfront, hbehind⟩ := exists_decimalPlaces hk (down_pos e)
  have hsearch : shortest tie m e =
      Decimal.stripZeros 17 (shortestFrom tie m (quartersBelow m) e (l + 1 : Nat) 17 1) := by
    rw [shortest, if_neg (by omega), scaled_neg]
    dsimp only
    rw [Nat.one_mul, hm, hplaces, Nat.pow_eq]
    simp only [hmin, and_true, quartersBelow]
  have hexponent : ∀ i ≤ l + 1, ((l + 1 : Nat) : Int) - (i : Nat) = (l + 1 - i : Nat) :=
    fun i hi => (Int.ofNat_sub hi).symm
  have hfound :
      neighbour? tie m (quartersBelow m) e ((l + 1 : Nat) - (min (l + 1) 17 : Nat)) ≠ none := by
    rw [hexponent _ (Nat.min_le_left ..)]
    rcases Nat.le_total (l + 1) 17 with hle | hle
    · rw [Nat.min_eq_left hle, Nat.sub_self]
      exact fun hnone => not_near_of_neighbour? hlow hm hnone (one_dvd k) (.of_eq hlow hm)
    · rw [Nat.min_eq_right hle]
      exact neighbour?_ne_none hlow hhigh hm (by rwa [show l + 1 - 17 + 16 = l by omega])
  obtain ⟨n, c, hone, hn, hc, hdigits, hbefore⟩ :=
    exists_shortestFrom (by omega : 1 ≤ min (l + 1) 17) (by omega : _ < 1 + 17) hfound
  rw [hexponent n (by omega)] at hc hdigits
  obtain ⟨hnear, hexact⟩ := near_of_neighbour? hlow hm hc
  refine ⟨c, l + 1 - n, by rw [hsearch, hdigits], hnear, ⟨fun heq i j hi hj => ?_, fun h => ?_⟩, ?_⟩
  · have hnone : ∀ i : Nat, l + 1 - n < i → i ≤ l →
        neighbour? tie m (quartersBelow m) e i = none := by
      intro i hpi hil
      rw [← hbefore (l + 1 - i) (by omega) (by omega), hexponent _ (by omega),
        Nat.sub_sub_self (by omega)]
    exact dvd_of_near hlow hm hk hbehind (by omega) hnone (Dvd.intro_left c heq) hi hj
  · exact hexact (h _ _ (Nat.dvd_mul_left ..) hnear)
  · intro hlarge
    have := (Nat.pow_lt_pow_iff_right (by decide)).mp (Nat.lt_of_le_of_lt hlarge hbehind)
    omega

end Integer

/-! ## Texts -/

/-- Moving zeros keeps the value. -/
theorem exists_stripZeros (fuel : Nat) (d : Decimal) :
    ∃ z : Nat, d.digits = (Decimal.stripZeros fuel d).digits * 10 ^ z ∧
      (Decimal.stripZeros fuel d).exponent = d.exponent + z := by
  induction fuel generalizing d with
  | zero => exact ⟨0, by simp [Decimal.stripZeros]⟩
  | succ fuel ih =>
    rw [Decimal.stripZeros]
    split
    · next h =>
      obtain ⟨z, hdigits, hexponent⟩ := ih { digits := d.digits / 10, exponent := d.exponent + 1 }
      refine ⟨z + 1, ?_, ?_⟩
      · rw [Nat.pow_succ, ← Nat.mul_assoc, ← hdigits,
          Nat.div_mul_cancel (Nat.dvd_of_mod_eq_zero h.2)]
      · rw [hexponent]
        push_cast
        ring
    · exact ⟨0, by simp⟩

/-- Digits without a fraction are those of an integer. -/
theorem layOut_stripZeros (fuel : Nat) {c : Nat} (hc : 0 < c) (p : Nat) :
    layOut (Decimal.stripZeros fuel { digits := c, exponent := p }).characters
      (Decimal.stripZeros fuel { digits := c, exponent := p }).exponent =
      Nat.toDigits 10 (c * 10 ^ p) := by
  obtain ⟨z, hdigits, hexponent⟩ := exists_stripZeros fuel { digits := c, exponent := p }
  dsimp only at hdigits hexponent
  have hpos := Nat.pos_of_mul_pos_right (hdigits ▸ hc)
  rw [hexponent, ← Int.natCast_add, layOut, if_pos (Int.natCast_nonneg _), Int.toNat_natCast,
    Decimal.characters, ← toDigits_mul_pow hpos, Nat.add_comm, Nat.pow_add, ← Nat.mul_assoc,
    ← hdigits]

/-- Up to `2 ^ 53` no other integer rounds to an integer. -/
theorem dvd_of_ofInt_eq {x : Double} (hx : x.Valid) {n : Int} (hn : x.toInt? = some n)
    (hsmall : n.natAbs < 2 ^ 53) {i : Nat} {j : Int} (hi : 10 ^ i ∣ j) (hj : ofInt j = x) :
    10 ^ i ∣ n := by
  by_cases hzero : n = 0
  · rw [hzero]
    exact dvd_zero _
  · obtain ⟨m, e, rfl, hlow, hhigh, -, he, hm⟩ := hx.exists_of_toInt? hn hzero
    obtain ⟨hsign, hnear⟩ := (ofInt_eq_iff hzero hlow hhigh he hm).mp hj
    obtain rfl : j = n := by
      have := hnear.le_and_le hlow hm
      omega
    exact hi

theorem natAbs_sign_mul {n : Int} (hn : n ≠ 0) (k : Nat) : (n.sign * k).natAbs = k := by
  rw [Int.natAbs_mul, Int.natAbs_sign_of_ne_zero hn, Nat.one_mul, Int.natAbs_natCast]

theorem sign_mul_neg_iff {n : Int} (hn : n ≠ 0) {k : Nat} (hk : 0 < k) :
    n.sign * k < 0 ↔ n < 0 := by
  rcases Int.lt_or_gt_of_ne hn with h | h
  · rw [Int.sign_eq_neg_one_of_neg h]
    omega
  · rw [Int.sign_eq_one_of_pos h]
    omega

theorem sign_mul_eq_iff {n : Int} (hn : n ≠ 0) (k : Nat) : n.sign * k = n ↔ k = n.natAbs := by
  constructor
  · intro h
    rw [← natAbs_sign_mul hn k, h]
  · rintro rfl
    exact Int.sign_mul_natAbs n

theorem pow_dvd_iff (i : Nat) (j : Int) : (10 : Int) ^ i ∣ j ↔ 10 ^ i ∣ j.natAbs := by
  rw [← Int.natCast_dvd, Int.natCast_pow]
  rfl

/-- The label of an integer is the text of an integer. It is the text of that integer if and only
    if no integer that rounds to the same double ends with more zeros. -/
theorem Valid.exists_label {x : Double} (hx : x.Valid) {n : Int} (hn : x.toInt? = some n) :
    ∃ d : Int, x.label = toString d ∧
      (d = n ↔ ∀ (i : Nat) (j : Int), 10 ^ i ∣ j → ofInt j = x → 10 ^ i ∣ n) ∧
      (10 ^ 17 ≤ n.natAbs → 10 ∣ d) := by
  rw [label, hn]
  dsimp only
  rw [Nat.pow_eq]
  by_cases hsmall : n.natAbs < 10 ^ 15
  · exact ⟨n, if_pos hsmall,
      iff_of_true rfl fun i j hi hj => dvd_of_ofInt_eq hx hn (by omega) hi hj, by omega⟩
  · have hzero : n ≠ 0 := by omega
    obtain ⟨m, e, rfl, hlow, hhigh, hmin, he, hm⟩ := hx.exists_of_toInt? hn hzero
    obtain ⟨c, p, hshortest, hnear, hexact, hzeros⟩ :=
      exists_shortest hlow hhigh hmin hm (by omega)
    have hround := fun j => ofInt_eq_iff (j := j) hzero hlow hhigh he hm
    refine ⟨n.sign * (c * 10 ^ p : Nat), ?_, ?_, fun hlarge => ?_⟩
    · have hpos := hnear.pos hlow hm (by omega)
      rw [if_neg hsmall, positional, hshortest,
        layOut_stripZeros 17 (Nat.pos_of_mul_pos_right hpos),
        ← String.ofList_toList (s := toString _), toList_toString_int, natAbs_sign_mul hzero]
      simp only [sign_mul_neg_iff hzero hpos]
    · rw [sign_mul_eq_iff hzero, hexact]
      constructor
      · intro h i j hi hj
        rw [pow_dvd_iff] at hi ⊢
        exact h i j.natAbs hi ((hround j).mp hj).2
      · intro h i j hi hj
        have hpos := hj.pos hlow hm (by omega)
        have habs := natAbs_sign_mul hzero j
        rw [← pow_dvd_iff]
        refine h i (n.sign * j) ?_ ((hround _).mpr ⟨sign_mul_neg_iff hzero hpos, ?_⟩)
        · rwa [pow_dvd_iff, habs]
        · rwa [habs]
    · refine Dvd.dvd.mul_left (Int.natCast_dvd_natCast.mpr ?_) _
      exact (dvd_pow_self 10 (Nat.ne_of_gt (hzeros hlarge))).mul_left c

end Double

namespace Flow

/-- The label of a double that is an integer is the text of the number of its sequence if and only
    if that number has 64 bits and no integer that rounds to the double ends with more zeros; up to
    `2 ^ 53` this is always so. Beyond either end of the 64 bits all integers have one number. -/
theorem label_eq_stepId_iff {x : Double} (hx : x.Valid) {n : Int} (hn : x.toInt? = some n) :
    ∃ id, stepId? x = some id ∧
      (x.label = toString id ↔ (-idBound ≤ n ∧ n < idBound) ∧
        ∀ (i : Nat) (j : Int), 10 ^ i ∣ j → Double.ofInt j = x → 10 ^ i ∣ n) ∧
      (n.natAbs < 2 ^ 53 → x.label = toString id) ∧
      ∀ {y : Double} {n' : Int}, y.toInt? = some n' → (stepId? y = some id ↔
        n' = n ∨ idBound - 1 ≤ n ∧ idBound - 1 ≤ n' ∨ n ≤ -idBound ∧ n' ≤ -idBound) := by
  obtain ⟨d, hlabel, hexact, hzeros⟩ := hx.exists_label hn
  have hbound : idBound = 2 ^ 63 := rfl
  have htext : ∀ id : Int, x.label = toString id ↔ d = id := by
    intro id
    rw [hlabel, Int.toString_eq_repr, Int.toString_eq_repr, Int.repr_inj]
  refine ⟨max (-idBound) (min n (idBound - 1)), by rw [stepId?, hn]; rfl, ?_, ?_, ?_⟩
  · rw [htext]
    by_cases hrange : -idBound ≤ n ∧ n < idBound
    · rw [show max (-idBound) (min n (idBound - 1)) = n by omega, hexact, and_iff_right hrange]
    · -- A number of more than seventeen digits ends with a zero in its label; the bounds do not.
      have hten := hzeros (by omega)
      exact iff_of_false (by omega) fun h => hrange h.1
  · intro hsmall
    rw [htext, show max (-idBound) (min n (idBound - 1)) = n by omega, hexact]
    exact fun i j hi hj => Double.dvd_of_ofInt_eq hx hn hsmall hi hj
  · intro y n' hn'
    rw [stepId?, hn', Option.map_some, Option.some.injEq]
    omega

/-- A power of two to which an integer with three zeros rounds as well. -/
def shortened : Double := Double.ofInt (2 ^ 60)

theorem shortened_label :
    shortened.Valid ∧ shortened.toInt? = some (2 ^ 60) ∧
      ∃ id, stepId? shortened = some id ∧ shortened.label ≠ toString id ∧
        ∀ {y : Double} {n : Int}, y.toInt? = some n → (stepId? y = some id ↔ n = 2 ^ 60) := by
  have hvalid : shortened.Valid := by decide +kernel
  have hn : shortened.toInt? = some (2 ^ 60) := by decide +kernel
  have hother : Double.ofInt 1152921504606847000 = shortened := by decide +kernel
  have hbound : idBound = 2 ^ 63 := rfl
  obtain ⟨id, hid, hlabel, -, hsame⟩ := label_eq_stepId_iff hvalid hn
  refine ⟨hvalid, hn, id, hid, fun heq => ?_, fun hy => (hsame hy).trans (by omega)⟩
  have hdvd := (hlabel.mp heq).2 3 _ (by decide) hother
  revert hdvd
  decide

/-- A label that is not the text of the number, and two integers with one number. -/
theorem label_misses_stepId :
    stepId? shortened = some 1152921504606846976 ∧ shortened.label = "1152921504606847000" ∧
      (Double.ofInt (10 ^ 19)).toInt? = some (10 ^ 19) ∧
      (Double.ofInt (10 ^ 20)).toInt? = some (10 ^ 20) ∧
      stepId? (Double.ofInt (10 ^ 19)) = stepId? (Double.ofInt (10 ^ 20)) := by
  decide +kernel

end Flow

end Stepflow
