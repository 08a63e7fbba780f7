import Mathlib
import Stepflow.Number.Shortest
import Stepflow.Proofs.Radix

/-!
# Decimal texts of integers

What is written for a number is read as that number, by each of the readers.

* `IsWordText`: the ways to write a number of 64 bits.

Results:
* `natOfDecimal_toDigits`, `isWordText_toDigits`: digits of a natural number.
* `natOfDigits?_ten_eq_some_iff`, `wordOfNumeral?_eq_some_iff`: what is read as a natural number.
* `takeWhile_digits`, `dropWhile_digits`: where the digits at the front of a text end.
* `head?_toDigits_ne_zero`: only zero begins with the digit zero.
* `toList_toString_int`: the text of an integer is a sign and digits.
-/

namespace Stepflow

/-! ## Digits -/

theorem isDigit_iff {c : Char} : c.isDigit ↔ 48 ≤ c.toNat ∧ c.toNat ≤ 57 := by
  rw [Char.isDigit, Bool.and_eq_true, decide_eq_true_eq, decide_eq_true_eq, ge_iff_le,
    UInt32.le_iff_toNat_le, UInt32.le_iff_toNat_le]
  rfl

/-- A digit is no letter. -/
theorem toLower_of_isDigit {c : Char} (h : c.isDigit) : c.toLower = c := by
  rw [isDigit_iff] at h
  rw [Char.toLower, dif_neg]
  rintro ⟨hupper, -⟩
  rw [ge_iff_le, UInt32.le_iff_toNat_le] at hupper
  change 65 ≤ c.toNat at hupper
  omega

theorem natOfDecimal_eq (cs : List Char) : natOfDecimal cs = Nat.ofDigitChars 10 cs 0 := by
  simp only [natOfDecimal, Nat.ofDigitChars_eq_foldl, Nat.mul_comm]

@[simp] theorem natOfDecimal_toDigits (n : Nat) : natOfDecimal (Nat.toDigits 10 n) = n := by
  rw [natOfDecimal_eq, Nat.ofDigitChars_ten_toDigits]

theorem isDigit_toDigits {n : Nat} {c : Char} (h : c ∈ Nat.toDigits 10 n) : c.isDigit :=
  Nat.isDigit_of_mem_toDigits (by decide) (by decide) h

theorem toDigits_cons (n : Nat) : ∃ c cs, Nat.toDigits 10 n = c :: cs ∧ c.isDigit := by
  obtain ⟨c, cs, h⟩ := List.exists_cons_of_ne_nil (Nat.toDigits_ne_nil (n := n) (b := 10))
  exact ⟨c, cs, h, isDigit_toDigits (h ▸ List.mem_cons_self)⟩

/-- Only zero begins with the digit zero. -/
theorem head?_toDigits_ne_zero {n : Nat} (h : n ≠ 0) : (Nat.toDigits 10 n).head? ≠ some '0' := by
  induction n using Nat.strong_induction_on with
  | _ n ih =>
    rw [Nat.toDigits_eq_if (by decide)]
    split
    · rw [List.head?_cons, ne_eq, Option.some.injEq, Nat.digitChar_eq_zero]
      exact h
    · obtain ⟨c, cs, hcs, -⟩ := toDigits_cons (n / 10)
      have hhead := ih (n / 10) (by omega) (by omega)
      rwa [hcs] at hhead ⊢

section Texts

variable {ds rest : List Char}

theorem takeWhile_digits (hds : ∀ c ∈ ds, c.isDigit) (hrest : ∀ c ∈ rest.head?, ¬ c.isDigit) :
    (ds ++ rest).takeWhile Char.isDigit = ds := by
  rw [List.takeWhile_append_of_pos hds]
  cases rest with
  | nil => simp
  | cons c cs => simp [hrest c rfl]

theorem dropWhile_digits (hds : ∀ c ∈ ds, c.isDigit) (hrest : ∀ c ∈ rest.head?, ¬ c.isDigit) :
    (ds ++ rest).dropWhile Char.isDigit = rest := by
  rw [List.dropWhile_append_of_pos hds]
  cases rest with
  | nil => rfl
  | cons c cs => simp [hrest c rfl]

end Texts

/-! ## Natural numbers -/

/-- In radix ten a digit is taken, and a letter is refused. -/
theorem natOfDigitsFrom?_ten_cons (value : Nat) (c : Char) (cs : List Char) :
    natOfDigitsFrom? 10 value (c :: cs) =
      if c.isDigit then natOfDigitsFrom? 10 (value * 10 + (c.toNat - '0'.toNat)) cs else none := by
  rw [natOfDigitsFrom?]
  by_cases hdigit : c.isDigit
  · have hrange := isDigit_iff.mp hdigit
    have hzero : '0'.toNat = 48 := rfl
    rw [digitValue?, if_pos hdigit, if_pos hdigit]
    dsimp only
    rw [if_pos (by omega)]
  · rw [digitValue?, if_neg hdigit, if_neg hdigit]
    split_ifs
    · exact if_neg (by omega)
    · exact if_neg (by omega)
    · rfl

/-- Decimal digits are read, and nothing else. -/
theorem natOfDigitsFrom?_ten (value : Nat) (cs : List Char) :
    natOfDigitsFrom? 10 value cs =
      if cs.all Char.isDigit then some (Nat.ofDigitChars 10 cs value) else none := by
  induction cs generalizing value with
  | nil => rfl
  | cons c cs ih =>
    rw [natOfDigitsFrom?_ten_cons, ih, List.all_cons, Nat.ofDigitChars_cons, Nat.mul_comm]
    by_cases hdigit : c.isDigit
    · simp [hdigit]
    · simp [hdigit]

theorem natOfDigits?_ten_eq_some_iff {cs : List Char} {n : Nat} :
    natOfDigits? 10 cs = some n ↔
      cs ≠ [] ∧ (∀ c ∈ cs, c.isDigit) ∧ Nat.ofDigitChars 10 cs 0 = n := by
  rw [natOfDigits?, natOfDigitsFrom?_ten]
  by_cases hnil : cs = []
  · simp [hnil]
  · simp [hnil]

/-- The number is written with decimal digits, perhaps behind a plus sign, and has 64 bits. -/
def IsWordText (cs : List Char) (n : Nat) : Prop :=
  ∃ sign digits, cs = sign ++ digits ∧ (sign = [] ∨ sign = ['+']) ∧ digits ≠ [] ∧
    (∀ c ∈ digits, c.isDigit) ∧ Nat.ofDigitChars 10 digits 0 = n ∧ n ≤ 2 ^ 64 - 1

theorem lt_wordCount_iff {n : Nat} : n < wordCount ↔ n ≤ 2 ^ 64 - 1 := by
  rw [wordCount, Nat.pow_eq]
  omega

/-- A sign in front of the digits makes no difference. -/
theorem wordOfNumeral?_plus (radix : Nat) (cs : List Char) :
    wordOfNumeral? radix ('+' :: cs) = (natOfDigits? radix cs).filter (· < wordCount) := rfl

theorem wordOfNumeral?_eq_some_iff {cs : List Char} {n : Nat} :
    wordOfNumeral? 10 cs = some n ↔ IsWordText cs n := by
  constructor
  · intro h
    have hread : ∀ {digits : List Char},
        (natOfDigits? 10 digits).filter (· < wordCount) = some n →
        digits ≠ [] ∧ (∀ c ∈ digits, c.isDigit) ∧ Nat.ofDigitChars 10 digits 0 = n ∧
          n ≤ 2 ^ 64 - 1 := by
      intro digits hdigits
      obtain ⟨hvalue, hword⟩ := Option.filter_eq_some_iff.mp hdigits
      obtain ⟨hne, hall, heq⟩ := natOfDigits?_ten_eq_some_iff.mp hvalue
      exact ⟨hne, hall, heq, lt_wordCount_iff.mp (of_decide_eq_true hword)⟩
    unfold wordOfNumeral? at h
    split at h
    · next digits => exact ⟨['+'], digits, rfl, .inr rfl, hread h⟩
    · exact ⟨[], cs, rfl, .inl rfl, hread h⟩
  · rintro ⟨sign, digits, rfl, hsign, hne, hall, heq, hword⟩
    have hvalue : natOfDigits? 10 digits = some n :=
      natOfDigits?_ten_eq_some_iff.mpr ⟨hne, hall, heq⟩
    have hlt : n < wordCount := lt_wordCount_iff.mpr hword
    rcases hsign with rfl | rfl
    · exact wordOfNumeral?_of_natOfDigits? hvalue hlt
    · change wordOfNumeral? 10 ('+' :: digits) = some n
      rw [wordOfNumeral?_plus, hvalue, Option.filter_some, if_pos (decide_eq_true hlt)]

theorem IsWordText.not_mem {cs : List Char} {n : Nat} (h : IsWordText cs n) {c : Char}
    (hplus : c ≠ '+') (hc : c.isDigit = false) : c ∉ cs := by
  obtain ⟨sign, digits, rfl, hsign, -, hall, -⟩ := h
  rw [List.mem_append, not_or]
  constructor
  · rcases hsign with rfl | rfl
    · exact List.not_mem_nil
    · simpa using hplus
  · intro hmem
    rw [hall c hmem] at hc
    cases hc

theorem isWordText_toDigits {n : Nat} (h : n < wordCount) : IsWordText (Nat.toDigits 10 n) n :=
  ⟨[], Nat.toDigits 10 n, rfl, .inl rfl, Nat.toDigits_ne_nil, fun _ => isDigit_toDigits,
    Nat.ofDigitChars_ten_toDigits, lt_wordCount_iff.mp h⟩

/-! ## Integers -/

/-- The text of an integer is a sign and digits. -/
theorem toList_toString_int (n : Int) :
    (toString n).toList = Double.signText (n < 0) ++ Nat.toDigits 10 n.natAbs := by
  rw [Int.toString_eq_repr, Int.repr_eq_if]
  split
  · next h =>
    rw [Nat.toList_repr, show n.toNat = n.natAbs by omega, Double.signText,
      if_neg (by simpa using h), List.nil_append]
  · next h =>
    rw [String.toList_append, Nat.toList_repr, show (-n).toNat = n.natAbs by omega,
      Double.signText, if_pos (by simpa using h)]
    rfl

end Stepflow
