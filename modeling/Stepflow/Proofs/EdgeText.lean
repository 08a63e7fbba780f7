import Mathlib
import Stepflow.Proofs.ChartJson
import Stepflow.Proofs.Numerals

/-!
# Texts of edges

An edge is read from a numeral, a space and an operator. The text is cut at its first space, then
the numeral is looked at, and the operator last, so of several faults the first one is named.

* `Reading`: what becomes of a text, case by case.

Results:
* `exists_halves`, `halves?_eq_none_iff`: where a text is cut.
* `ofText_eq_iff_reading`: the reader does what the cases say.
* `ofText_text_ofInt`: an edge to an integer of at most fifteen digits comes back from its text.
* `ofText_iff`: which texts are edges, and what is wrong with the others.
-/

namespace Stepflow.Flow.Edge

open Double (NumeralText)

/-! ## Halves -/

/-- A text with a space in it is cut at the first one. -/
theorem exists_halves {s : String} (h : ' ' ∈ s.toList) :
    ∃ front back : String, s = front ++ " " ++ back ∧ ' ' ∉ front.toList := by
  obtain ⟨front, back, hs, hfront⟩ := List.eq_append_cons_of_mem h
  refine ⟨String.ofList front, String.ofList back, ?_, by rwa [String.toList_ofList]⟩
  rw [← String.toList_inj, hs]
  simp

theorem halves?_eq_none_iff {s : String} : halves? s = none ↔ ' ' ∉ s.toList := by
  constructor
  · intro h hspace
    obtain ⟨front, back, rfl, hfront⟩ := exists_halves hspace
    rw [halves?_of_not_mem hfront] at h
    cases h
  · intro h
    have hall : ∀ c ∈ s.toList, (c != ' ') = true := by
      intro c hc
      rw [bne_iff_ne]
      rintro rfl
      exact h hc
    unfold halves?
    rw [List.dropWhile_eq_nil_iff.mpr hall]

/-! ## Reading -/

/-- What becomes of a text. -/
inductive Reading : String → Except Fault Edge → Prop
  | noSpace {s : String} (hspace : ' ' ∉ s.toList) : Reading s (.error (.noSpace s))
  | target {number rest : String} (hspace : ' ' ∉ number.toList)
      (hnumber : ¬ ∃ x, NumeralText number.toList x) :
      Reading (number ++ " " ++ rest) (.error (.target number))
  | mode {number rest : String} (hnumber : ∃ x, NumeralText number.toList x)
      (hrest : ∀ mode : Mode, rest ≠ mode.operator) :
      Reading (number ++ " " ++ rest) (.error (.mode rest))
  | edge {number : String} {e : Edge} (hnumber : NumeralText number.toList e.target) :
      Reading (number ++ " " ++ e.mode.operator) (.ok e)

theorem ofNumeral?_eq_none_iff {cs : List Char} :
    Double.ofNumeral? cs = none ↔ ¬ ∃ x, NumeralText cs x := by
  rw [Option.eq_none_iff_forall_ne_some, not_exists]
  exact forall_congr' fun x => not_congr Double.ofNumeral?_eq_some_iff

theorem ofOperator?_eq_none_iff {operator : String} :
    Mode.ofOperator? operator = none ↔ ∀ mode : Mode, operator ≠ mode.operator := by
  rw [Option.eq_none_iff_forall_ne_some]
  exact forall_congr' fun mode => not_congr Mode.ofOperator?_eq_some_iff

theorem forall_operator_iff {operator : String} :
    (∀ mode : Mode, operator ≠ mode.operator) ↔ operator ∉ ["&&", "||"] := by
  simp only [List.mem_cons, List.not_mem_nil, or_false, not_or]
  constructor
  · intro h
    exact ⟨h .holds, h .fails⟩
  · intro h mode
    cases mode with
    | holds => exact h.1
    | fails => exact h.2

theorem ofText_of_reading {s : String} {r : Except Fault Edge} (h : Reading s r) :
    ofText s = r := by
  unfold ofText
  cases h with
  | noSpace hspace => rw [halves?_eq_none_iff.mpr hspace]
  | target hspace hnumber =>
    rw [halves?_of_not_mem hspace]
    dsimp only
    rw [ofNumeral?_eq_none_iff.mpr hnumber]
  | mode hnumber hrest =>
    obtain ⟨x, hx⟩ := hnumber
    rw [halves?_of_not_mem hx.not_mem_space]
    dsimp only
    rw [Double.ofNumeral?_eq_some_iff.mpr hx]
    dsimp only
    rw [ofOperator?_eq_none_iff.mpr hrest]
  | edge hnumber =>
    rw [halves?_of_not_mem hnumber.not_mem_space]
    dsimp only
    rw [Double.ofNumeral?_eq_some_iff.mpr hnumber]
    dsimp only
    rw [Mode.ofOperator?_eq_some_iff.mpr rfl]

/-- Every text has a reading. -/
theorem exists_reading (s : String) : ∃ r, Reading s r := by
  by_cases hspace : ' ' ∈ s.toList
  · obtain ⟨number, rest, rfl, hnumber⟩ := exists_halves hspace
    by_cases hnumeral : ∃ x, NumeralText number.toList x
    · by_cases hrest : ∃ mode : Mode, rest = mode.operator
      · obtain ⟨x, hx⟩ := hnumeral
        obtain ⟨mode, rfl⟩ := hrest
        exact ⟨_, .edge (e := { target := x, mode := mode }) hx⟩
      · exact ⟨_, .mode hnumeral (not_exists.mp hrest)⟩
    · exact ⟨_, .target hnumber hnumeral⟩
  · exact ⟨_, .noSpace hspace⟩

theorem ofText_eq_iff_reading {s : String} {r : Except Fault Edge} :
    ofText s = r ↔ Reading s r := by
  constructor
  · rintro rfl
    obtain ⟨r, hr⟩ := exists_reading s
    rwa [ofText_of_reading hr]
  · exact ofText_of_reading

/-! ## Written edges -/

/-- An integer of at most fifteen digits is a target, and a written edge to it comes back. -/
theorem ofText_text_ofInt {n : Int} (h : n.natAbs < 10 ^ 15) (mode : Mode) :
    (Double.ofInt n).toInt? = some n ∧
      ofText (text { target := Double.ofInt n, mode := mode }) =
        .ok { target := Double.ofInt n, mode := mode } := by
  obtain ⟨hvalid, hn⟩ := Double.valid_ofInt (by omega : n.natAbs < 2 ^ 53)
  have hread := ofText_text (e := { target := Double.ofInt n, mode := mode }) ⟨hvalid, n, hn, h⟩
  refine ⟨hn, ?_⟩
  rw [hread, plain, ← hvalid.ofInt_eq hn]

/-- A text is an edge if and only if it is a numeral, a space and an operator. Otherwise the fault
    is that it has no space, or that what stands in front of the first space is no numeral, or else
    that what stands behind that space is no operator. An edge to an integer of at most fifteen
    digits comes back from its text. -/
theorem ofText_iff (s : String) :
    (∀ e : Edge, ofText s = .ok e ↔ ∃ number : String,
      s = number ++ " " ++ e.mode.operator ∧ NumeralText number.toList e.target) ∧
    (∀ fault, ofText s = .error fault ↔
      ' ' ∉ s.toList ∧ fault = .noSpace s ∨
      ∃ number rest : String, s = number ++ " " ++ rest ∧ ' ' ∉ number.toList ∧
        ((¬ ∃ x, NumeralText number.toList x) ∧ fault = .target number ∨
          (∃ x, NumeralText number.toList x) ∧ rest ∉ ["&&", "||"] ∧ fault = .mode rest)) ∧
    ∀ (n : Int) (mode : Mode), n.natAbs < 10 ^ 15 → (Double.ofInt n).toInt? = some n ∧
      ofText (text { target := Double.ofInt n, mode := mode }) =
        .ok { target := Double.ofInt n, mode := mode } := by
  refine ⟨fun e => ?_, fun fault => ?_, fun n mode h => ofText_text_ofInt h mode⟩
  · rw [ofText_eq_iff_reading]
    constructor
    · intro h
      cases h with
      | edge hnumber => exact ⟨_, rfl, hnumber⟩
    · rintro ⟨number, rfl, hnumber⟩
      exact .edge hnumber
  · rw [ofText_eq_iff_reading]
    constructor
    · intro h
      cases h with
      | noSpace hspace => exact .inl ⟨hspace, rfl⟩
      | target hspace hnumber => exact .inr ⟨_, _, rfl, hspace, .inl ⟨hnumber, rfl⟩⟩
      | mode hnumber hrest =>
        have hspace := hnumber.choose_spec.not_mem_space
        exact .inr ⟨_, _, rfl, hspace, .inr ⟨hnumber, forall_operator_iff.mp hrest, rfl⟩⟩
    · rintro (⟨hspace, rfl⟩ | ⟨number, rest, rfl, hspace, ⟨hnumber, rfl⟩ | ⟨hnumber, hrest, rfl⟩⟩)
      · exact .noSpace hspace
      · exact .target hspace hnumber
      · exact .mode hnumber (forall_operator_iff.mpr hrest)

end Stepflow.Flow.Edge
