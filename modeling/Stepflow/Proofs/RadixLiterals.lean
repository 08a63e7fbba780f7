import Mathlib
import Stepflow.Proofs.Radix
import Stepflow.Proofs.Rounding
import Stepflow.Tree.Literal

/-!
# Literals in a radix

A literal in a radix is a zero, a letter for the radix, and digits. The letter and the digits may be
of either case, any number of zeros may stand in front, and underscores may stand anywhere. What is
read is always the number that was written.

* `radixMarks`: the letters behind the zero, and the radix of each.
* `Insertion`: one underscore is put into a text.
* `Regrouped`: underscores are put into a text and taken out of it.

Results:
* `regrouped_iff`: texts that are the same without the underscores can be made of each other.
* `numberValue_digits`: digits behind a zero and a letter denote their number.
* `numberValue_radix`: so they do with underscores, and underscores do not matter to any literal.
-/

namespace Stepflow.Literal

/-! ## Underscores -/

/-- One underscore is put somewhere into a text. -/
inductive Insertion : List Char → List Char → Prop
  | mk (x y : List Char) : Insertion (x ++ y) (x ++ '_' :: y)

/-- Underscores are put into a text and taken out of it, as often as one likes. -/
def Regrouped : List Char → List Char → Prop :=
  Relation.EqvGen Insertion

theorem Insertion.filter_eq {cs cs' : List Char} (h : Insertion cs cs') :
    cs.filter (· != '_') = cs'.filter (· != '_') := by
  cases h with
  | mk x y => simp [List.filter_append]

theorem Insertion.append_left {cs cs' : List Char} (h : Insertion cs cs') (front : List Char) :
    Insertion (front ++ cs) (front ++ cs') := by
  cases h with
  | mk x y =>
    rw [← List.append_assoc, ← List.append_assoc]
    exact .mk (front ++ x) y

namespace Regrouped

variable {cs cs' : List Char}

theorem filter_eq (h : Regrouped cs cs') : cs.filter (· != '_') = cs'.filter (· != '_') := by
  induction h with
  | rel _ _ h => exact h.filter_eq
  | refl _ => rfl
  | symm _ _ _ ih => exact ih.symm
  | trans _ _ _ _ _ ih ih' => exact ih.trans ih'

/-- Underscores behind a text do not touch it. -/
theorem append_left (h : Regrouped cs cs') (front : List Char) :
    Regrouped (front ++ cs) (front ++ cs') := by
  induction h with
  | rel _ _ h => exact .rel _ _ (h.append_left front)
  | refl _ => exact .refl _
  | symm _ _ _ ih => exact .symm _ _ ih
  | trans _ _ _ _ _ ih ih' => exact .trans _ _ _ ih ih'

theorem of_filter (cs : List Char) : Regrouped (cs.filter (· != '_')) cs := by
  induction cs with
  | nil => exact .refl _
  | cons c cs ih =>
    by_cases hc : c = '_'
    · have hfilter : (c :: cs).filter (· != '_') = cs.filter (· != '_') := by simp [hc]
      rw [hfilter, hc]
      exact .trans _ _ _ ih (.rel _ _ (.mk [] cs))
    · have hfilter : (c :: cs).filter (· != '_') = [c] ++ cs.filter (· != '_') := by simp [hc]
      rw [hfilter]
      exact ih.append_left [c]

end Regrouped

/-- Texts can be made of each other if and only if they are the same without the underscores. -/
theorem regrouped_iff {cs cs' : List Char} :
    Regrouped cs cs' ↔ cs.filter (· != '_') = cs'.filter (· != '_') := by
  constructor
  · exact Regrouped.filter_eq
  · intro h
    have hback := Regrouped.of_filter cs'
    rw [← h] at hback
    exact .trans _ _ _ (.symm _ _ (Regrouped.of_filter cs)) hback

instance (cs cs' : List Char) : Decidable (Regrouped cs cs') :=
  decidable_of_iff _ regrouped_iff.symm

/-- The value of a literal is read without the underscores. -/
theorem Regrouped.numberValue_eq {cs cs' : List Char} (h : Regrouped cs cs') :
    numberValue (String.ofList cs) = numberValue (String.ofList cs') := by
  simp only [numberValue, String.toList_ofList, h.filter_eq]

/-! ## Digits behind a letter -/

/-- The letters that announce a radix, in both cases. -/
def radixMarks : List (Char × Nat) :=
  [('b', 2), ('B', 2), ('o', 8), ('O', 8), ('x', 16), ('X', 16)]

section Digits

variable {mark : Char} {radix n : Nat} {ds : List Char}

theorem radix?_of_mem (h : (mark, radix) ∈ radixMarks) : radix? ['0', mark] = some radix := by
  simp only [radixMarks, List.mem_cons, List.not_mem_nil, or_false, Prod.mk.injEq] at h
  rcases h with ⟨rfl, rfl⟩ | ⟨rfl, rfl⟩ | ⟨rfl, rfl⟩ | ⟨rfl, rfl⟩ | ⟨rfl, rfl⟩ | ⟨rfl, rfl⟩ <;> rfl

theorem radix_bounds (h : (mark, radix) ∈ radixMarks) : 1 < radix ∧ radix ≤ 16 := by
  have hall : ∀ entry ∈ radixMarks, 1 < entry.2 ∧ entry.2 ≤ 16 := by decide
  exact hall _ h

theorem mark_ne_underscore (h : (mark, radix) ∈ radixMarks) : mark ≠ '_' := by
  have hall : ∀ entry ∈ radixMarks, entry.1 ≠ '_' := by decide
  exact hall _ h

/-- However many digits there are, a number of 64 bits is read and then rounded. -/
theorem numberValue_digits (hmark : (mark, radix) ∈ radixMarks) (hds : IsNumeral radix n ds)
    (hn : n < wordCount) : numberValue (String.ofList ('0' :: mark :: ds)) = Double.ofInt n := by
  obtain ⟨hradix, hletters⟩ := radix_bounds hmark
  have hread : natOfDigits? radix ds = some n := hds.natOfDigits?_eq hradix hletters
  have hnone : '_' ∉ '0' :: mark :: ds := by
    simp only [List.mem_cons, not_or]
    exact ⟨by decide, (mark_ne_underscore hmark).symm, not_mem_of_natOfDigits? hread (by decide)⟩
  have hfilter : ('0' :: mark :: ds).filter (· != '_') = '0' :: mark :: ds := by
    rw [List.filter_eq_self]
    intro c hc
    rw [bne_iff_ne]
    rintro rfl
    exact hnone hc
  simp only [numberValue, String.toList_ofList, hfilter, List.take_succ_cons, List.take_zero,
    List.drop_succ_cons, List.drop_zero, radix?_of_mem hmark,
    wordOfNumeral?_of_natOfDigits? hread hn, Double.ofInt_natCast]

end Digits

/-- A number below `2 ^ 53` is read exactly from every literal that is a zero, a letter for the
    radix, and its digits in that radix, letters in either case, with zeros in front of them and
    underscores anywhere among them. No literal changes its value when underscores are put into it
    or taken out of it. -/
theorem numberValue_radix :
    (∀ (n radix : Nat) (mark : Char) (ds cs : List Char), n < 2 ^ 53 →
      (mark, radix) ∈ radixMarks → IsNumeral radix n ds → Regrouped ds cs →
      numberValue (String.ofList ('0' :: mark :: cs)) = Double.ofInt n ∧
        (numberValue (String.ofList ('0' :: mark :: cs))).toInt? = some (n : Int)) ∧
    ∀ s t : String, Regrouped s.toList t.toList → numberValue s = numberValue t := by
  constructor
  · intro n radix mark ds cs hn hmark hds hcs
    have hword : n < wordCount := hn.trans (by decide)
    have hvalue : numberValue (String.ofList ('0' :: mark :: cs)) = Double.ofInt n := by
      rw [← numberValue_digits hmark hds hword]
      exact (hcs.append_left ['0', mark]).numberValue_eq.symm
    refine ⟨hvalue, ?_⟩
    rw [hvalue]
    exact (Double.valid_ofInt (by simpa using hn)).2
  · intro s t h
    simpa using h.numberValue_eq

/-- The greatest number of 53 binary digits, behind more zeros than 64 bits have room for. -/
theorem numberValue_radix_padded :
    IsNumeral 16 (2 ^ 53 - 1) "00000000000000001FffFFffffffff".toList ∧
    (numberValue "0X0000000000000000_1FffFF_ffffffff_").toInt? = some (2 ^ 53 - 1) ∧
    numberValue "1_000.5" = numberValue "_1000.5" := by
  have hdigits : IsNumeral 16 (2 ^ 53 - 1) "00000000000000001FffFFffffffff".toList :=
    ⟨16, by decide +kernel⟩
  have hgroups : Regrouped "00000000000000001FffFFffffffff".toList
      "0000000000000000_1FffFF_ffffffff_".toList := by decide
  have htext : String.ofList ('0' :: 'X' :: "0000000000000000_1FffFF_ffffffff_".toList) =
      "0X0000000000000000_1FffFF_ffffffff_" := by decide
  obtain ⟨-, hvalue⟩ := numberValue_radix.1 _ 16 'X' _ _ (by decide) (by decide) hdigits hgroups
  rw [htext] at hvalue
  exact ⟨hdigits, hvalue, numberValue_radix.2 _ _ (by decide)⟩

end Stepflow.Literal
