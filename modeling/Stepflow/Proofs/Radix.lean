import Mathlib
import Stepflow.Number.Numeral

/-!
# Digits of a radix

A number can be written in many ways in one radix: the letters among its digits may be of either
case, and there may be zeros in front. All of them are read as the number.

* `IsNumeral`: the ways to write a number.

Results:
* `isNumeral_toDigits`: the digits of the standard library are one of them.
* `exists_isNumeral_iff`: which numbers can be written with a given count of digits.
* `IsNumeral.natOfDigits?_eq`: what the digits of a number are read as.
* `not_mem_of_natOfDigits?`: what is read has nothing but digits in it.
* `wordOfNumeral?_of_natOfDigits?`: how numbers of 64 bits are read.
-/

namespace Stepflow

/-! ## Single digits -/

theorem digitValue?_digitChar {d : Nat} (h : d < 16) : digitValue? d.digitChar = some d := by
  revert d
  decide

theorem toLower_digitChar {d : Nat} (h : d < 16) : d.digitChar.toLower = d.digitChar := by
  revert d
  decide

/-- A digit has its value in either case. -/
theorem digitValue?_toLower (c : Char) : digitValue? c.toLower = digitValue? c := by
  cases hc : c.isUpper with
  | false => rw [Char.toLower_eq_of_not_isUpper (by simp [hc])]
  | true =>
    have hrange : 65 ≤ c.toNat ∧ c.toNat ≤ 90 := by
      simpa [Char.isUpper, UInt32.le_iff_toNat_le] using hc
    have hall : ∀ k < 91, 65 ≤ k →
        digitValue? (Char.ofNat k).toLower = digitValue? (Char.ofNat k) := by decide
    have hvalue := hall c.toNat (by omega) hrange.1
    rwa [Char.ofNat_toNat] at hvalue

/-! ## Reading digits -/

section Reading

variable {radix n value : Nat} {ds : List Char}

theorem natOfDigitsFrom?_append (radix value : Nat) (cs ds : List Char) :
    natOfDigitsFrom? radix value (cs ++ ds) =
      (natOfDigitsFrom? radix value cs).bind (natOfDigitsFrom? radix · ds) := by
  induction cs generalizing value with
  | nil => rfl
  | cons c cs ih =>
    rw [List.cons_append, natOfDigitsFrom?, natOfDigitsFrom?]
    cases digitValue? c with
    | none => rfl
    | some d =>
      dsimp only
      split_ifs
      · exact ih _
      · rfl

theorem natOfDigitsFrom?_map_toLower (radix value : Nat) (cs : List Char) :
    natOfDigitsFrom? radix value (cs.map Char.toLower) = natOfDigitsFrom? radix value cs := by
  induction cs generalizing value with
  | nil => rfl
  | cons c cs ih => simp only [List.map_cons, natOfDigitsFrom?, digitValue?_toLower, ih]

theorem natOfDigitsFrom?_zeros (hradix : 1 < radix) (zeros : Nat) :
    natOfDigitsFrom? radix 0 (List.replicate zeros '0') = some 0 := by
  have hzero : digitValue? '0' = some 0 := by decide
  induction zeros with
  | zero => rfl
  | succ zeros ih =>
    rw [List.replicate_succ, natOfDigitsFrom?, hzero]
    dsimp only
    rw [if_pos (by omega), Nat.zero_mul]
    exact ih

theorem natOfDigitsFrom?_toDigits (hradix : 1 < radix) (hletters : radix ≤ 16) (n : Nat) :
    natOfDigitsFrom? radix 0 (Nat.toDigits radix n) = some n := by
  induction n using Nat.strong_induction_on with
  | _ n ih =>
    rw [Nat.toDigits_eq_if hradix]
    split_ifs with hn
    · rw [natOfDigitsFrom?, digitValue?_digitChar (by omega)]
      dsimp only
      rw [if_pos hn, Nat.zero_mul, Nat.zero_add, natOfDigitsFrom?]
    · have hless : n / radix < n := Nat.div_lt_self (by omega) hradix
      have hdigit : n % radix < radix := Nat.mod_lt n (by omega)
      rw [natOfDigitsFrom?_append, ih _ hless, Option.bind_some, natOfDigitsFrom?,
        digitValue?_digitChar (by omega)]
      dsimp only
      rw [if_pos hdigit, natOfDigitsFrom?, Nat.div_add_mod']

theorem not_mem_of_natOfDigitsFrom? (h : natOfDigitsFrom? radix value ds = some n) {c : Char}
    (hc : digitValue? c = none) : c ∉ ds := by
  induction ds generalizing value with
  | nil => simp
  | cons d ds ih =>
    rw [natOfDigitsFrom?] at h
    cases hd : digitValue? d with
    | none => simp [hd] at h
    | some v =>
      rw [hd] at h
      dsimp only at h
      split_ifs at h
      rw [List.mem_cons, not_or]
      refine ⟨?_, ih h⟩
      rintro rfl
      rw [hc] at hd
      cases hd

/-- Nothing but digits is read. -/
theorem not_mem_of_natOfDigits? (h : natOfDigits? radix ds = some n) {c : Char}
    (hc : digitValue? c = none) : c ∉ ds := by
  by_cases hds : ds = []
  · simp [hds]
  · rw [natOfDigits?, if_neg (by simpa using hds)] at h
    exact not_mem_of_natOfDigitsFrom? h hc

/-- Digits of a number of 64 bits are a numeral without a plus sign. -/
theorem wordOfNumeral?_of_natOfDigits? (h : natOfDigits? radix ds = some n) (hn : n < wordCount) :
    wordOfNumeral? radix ds = some n := by
  have hplus : '+' ∉ ds := not_mem_of_natOfDigits? h (by decide)
  rw [wordOfNumeral?, h, Option.filter_some, if_pos (decide_eq_true hn)]
  rintro rest rfl
  exact hplus List.mem_cons_self

end Reading

/-! ## Numerals -/

/-- The number is written in digits of a radix, letters in either case, with any number of zeros in
    front. -/
def IsNumeral (radix n : Nat) (ds : List Char) : Prop :=
  ∃ zeros, ds.map Char.toLower = List.replicate zeros '0' ++ Nat.toDigits radix n

section Numerals

variable {radix n : Nat} {ds : List Char}

theorem map_toLower_toDigits (hradix : 1 < radix) (hletters : radix ≤ 16) (n : Nat) :
    (Nat.toDigits radix n).map Char.toLower = Nat.toDigits radix n := by
  induction n using Nat.strong_induction_on with
  | _ n ih =>
    rw [Nat.toDigits_eq_if hradix]
    split_ifs with hn
    · rw [List.map_singleton, toLower_digitChar (by omega)]
    · have hless : n / radix < n := Nat.div_lt_self (by omega) hradix
      have hdigit : n % radix < radix := Nat.mod_lt n (by omega)
      rw [List.map_append, ih _ hless, List.map_singleton, toLower_digitChar (by omega)]

theorem isNumeral_zeros_append (hradix : 1 < radix) (hletters : radix ≤ 16) (zeros n : Nat) :
    IsNumeral radix n (List.replicate zeros '0' ++ Nat.toDigits radix n) := by
  refine ⟨zeros, ?_⟩
  rw [List.map_append, List.map_replicate, map_toLower_toDigits hradix hletters]
  rfl

theorem isNumeral_toDigits (hradix : 1 < radix) (hletters : radix ≤ 16) (n : Nat) :
    IsNumeral radix n (Nat.toDigits radix n) :=
  isNumeral_zeros_append hradix hletters 0 n

/-- The numbers that can be written with a count of digits. -/
theorem exists_isNumeral_iff (hradix : 1 < radix) (hletters : radix ≤ 16) {count : Nat}
    (hcount : 0 < count) :
    (∃ ds, IsNumeral radix n ds ∧ ds.length = count) ↔ n < radix ^ count := by
  rw [← Nat.length_toDigits_le_iff hradix hcount]
  constructor
  · rintro ⟨ds, ⟨zeros, hds⟩, hlength⟩
    have hsum := congrArg List.length hds
    rw [List.length_map, List.length_append, List.length_replicate] at hsum
    omega
  · intro hle
    refine ⟨_, isNumeral_zeros_append hradix hletters (count - (Nat.toDigits radix n).length) n, ?_⟩
    rw [List.length_append, List.length_replicate]
    omega

theorem IsNumeral.ne_nil (h : IsNumeral radix n ds) : ds ≠ [] := by
  rintro rfl
  obtain ⟨zeros, h⟩ := h
  simp [Nat.toDigits_ne_nil] at h

/-- A number is read, however it is written. -/
theorem IsNumeral.natOfDigits?_eq (h : IsNumeral radix n ds) (hradix : 1 < radix)
    (hletters : radix ≤ 16) : natOfDigits? radix ds = some n := by
  obtain ⟨zeros, hds⟩ := id h
  rw [natOfDigits?, if_neg (by simpa using h.ne_nil), ← natOfDigitsFrom?_map_toLower, hds,
    natOfDigitsFrom?_append, natOfDigitsFrom?_zeros hradix, Option.bind_some,
    natOfDigitsFrom?_toDigits hradix hletters]

end Numerals

end Stepflow
