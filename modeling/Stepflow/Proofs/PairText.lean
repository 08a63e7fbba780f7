import Mathlib
import Stepflow.Flow.Codec
import Stepflow.Proofs.Digits
import Stepflow.Proofs.Words

/-!
# Texts of pairs of numbers

A pair of numbers is written as two numerals with one space between them. Signs in front of the
digits and further zeros are read as well, but no other text is.

Results:
* `pairOfText?_eq_some_iff`: which texts are read, and as what.
* `pairOfText?_pairText`: a written pair is read as that pair.
* `pairDecoder_string`: what becomes of every text.
-/

namespace Stepflow.Flow

/-- A text is read as a pair if and only if it is two numerals of 64 bits around one space. -/
theorem pairOfText?_eq_some_iff {s : String} {p : Nat × Nat} :
    pairOfText? s = some p ↔ ∃ first second : String, s = first ++ " " ++ second ∧
      IsWordText first.toList p.1 ∧ IsWordText second.toList p.2 := by
  have htext : ∀ first second : String,
      (first ++ " " ++ second).toList = first.toList ++ ' ' :: second.toList := by
    intro first second
    rw [String.toList_append, String.toList_append, List.append_assoc]
    rfl
  constructor
  · intro h
    unfold pairOfText? at h
    split at h
    · next first second hsplit =>
      obtain ⟨a, ha, b, hb, hp⟩ : ∃ a, wordOfNumeral? 10 first = some a ∧
          ∃ b, wordOfNumeral? 10 second = some b ∧ (a, b) = p := by
        simpa [Option.bind_eq_some_iff] using h
      refine ⟨String.ofList first, String.ofList second, ?_, ?_, ?_⟩
      · rw [← String.toList_inj, htext, String.toList_ofList, String.toList_ofList]
        exact (Text.splitOn_eq_pair_iff.mp hsplit).1
      · rw [String.toList_ofList, ← hp]
        exact wordOfNumeral?_eq_some_iff.mp ha
      · rw [String.toList_ofList, ← hp]
        exact wordOfNumeral?_eq_some_iff.mp hb
    · cases h
  · rintro ⟨first, second, rfl, hfirst, hsecond⟩
    have hsplit : Text.splitOn ' ' (first ++ " " ++ second).toList =
        [first.toList, second.toList] :=
      Text.splitOn_eq_pair_iff.mpr ⟨htext first second, hfirst.not_mem (by decide) rfl,
        hsecond.not_mem (by decide) rfl⟩
    rw [pairOfText?, hsplit]
    dsimp only
    rw [wordOfNumeral?_eq_some_iff.mpr hfirst, wordOfNumeral?_eq_some_iff.mpr hsecond]
    rfl

/-- A written pair of numbers is read as that pair. -/
theorem pairOfText?_pairText {p : Nat × Nat} (hfst : p.1 < wordCount) (hsnd : p.2 < wordCount) :
    pairOfText? (pairText p) = some p := by
  have hword : ∀ {n : Nat}, n < wordCount → IsWordText (toString n).toList n := by
    intro n hn
    rw [Nat.toString_eq_repr, Nat.toList_repr]
    exact isWordText_toDigits hn
  exact pairOfText?_eq_some_iff.mpr ⟨toString p.1, toString p.2, rfl, hword hfst, hword hsnd⟩

/-- What is refused is named. -/
theorem pairDecoder_eq (s : String) :
    pairDecoder (.string s) =
      (pairOfText? s).elim (.error (.refused ("invalid number pair '" ++ s ++ "'"))) .ok := by
  simp only [pairDecoder, Json.Decoder.text, bind, Except.bind]
  cases pairOfText? s with
  | none => rfl
  | some p => rfl

/-- A text is read as a pair if and only if it is two numerals around one space, each of them one or
    more decimal digits for a number of 64 bits, perhaps behind a plus sign. Every other text is
    refused by name. A pair of numbers of 64 bits comes back from what is written for it. -/
theorem pairDecoder_string (s : String) :
    (∀ p, pairDecoder (.string s) = .ok p ↔ ∃ first second : String, s = first ++ " " ++ second ∧
      IsWordText first.toList p.1 ∧ IsWordText second.toList p.2) ∧
    (∀ fault, pairDecoder (.string s) = .error fault ↔
      fault = .refused ("invalid number pair '" ++ s ++ "'") ∧
        ¬ ∃ first second : String, s = first ++ " " ++ second ∧
          (∃ a, IsWordText first.toList a) ∧ ∃ b, IsWordText second.toList b) ∧
    ∀ a b : UInt64, pairDecoder (.string (pairText (a.toNat, b.toNat))) =
      .ok (a.toNat, b.toNat) := by
  have hsome : (∃ p, pairOfText? s = some p) ↔ ∃ first second : String,
      s = first ++ " " ++ second ∧ (∃ a, IsWordText first.toList a) ∧
        ∃ b, IsWordText second.toList b := by
    constructor
    · rintro ⟨p, hp⟩
      obtain ⟨first, second, heq, hfirst, hsecond⟩ := pairOfText?_eq_some_iff.mp hp
      exact ⟨first, second, heq, ⟨p.1, hfirst⟩, p.2, hsecond⟩
    · rintro ⟨first, second, heq, ⟨a, ha⟩, b, hb⟩
      exact ⟨(a, b), pairOfText?_eq_some_iff.mpr ⟨first, second, heq, ha, hb⟩⟩
  refine ⟨fun p => ?_, fun fault => ?_, fun a b => ?_⟩
  · rw [← pairOfText?_eq_some_iff, pairDecoder_eq]
    cases pairOfText? s with
    | none => simp
    | some q => simp
  · rw [← hsome, pairDecoder_eq]
    cases pairOfText? s with
    | none => simp [eq_comm]
    | some q => simp
  · have hword : ∀ c : UInt64, c.toNat < wordCount := fun c => c.toNat_lt
    rw [pairDecoder_eq, pairOfText?_pairText (hword a) (hword b)]
    rfl

end Stepflow.Flow
