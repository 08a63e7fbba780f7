import Mathlib
import Stepflow.Proofs.Digits

/-!
# The grammar of numerals

A numeral is a sign, or none, in front of a word or of a decimal fraction. A decimal fraction has
digits with an optional point among them, at least one digit in all, and an optional exponent.

* `SignText`, `ExponentText`, `MantissaText`: the parts of a numeral, each with what it says.
* `UnsignedText`, `NumeralText`: numerals and the doubles that they denote.

Results:
* `exponentOf?_eq_some_iff`, `ofUnsigned?_eq_some_iff`: the reader takes each part as the grammar
  has it.
* `ofNumeral?_eq_some_iff`: what is read as a double is what the grammar has.
* `ofNumeral?_toString`: the text of an integer denotes the double nearest to it.
* `NumeralText.not_mem_space`: no numeral has a space in it.
-/

namespace Stepflow.Double

/-! ## Grammar -/

/-- A sign or none, and whether it is negative. -/
inductive SignText : List Char → Bool → Prop
  | absent : SignText [] false
  | plus : SignText ['+'] false
  | minus : SignText ['-'] true

/-- One or more decimal digits. -/
def IsDigits (ds : List Char) : Prop :=
  ds ≠ [] ∧ ∀ c ∈ ds, c.isDigit

/-- An exponent or none, and its value. -/
inductive ExponentText : List Char → Int → Prop
  | absent : ExponentText [] 0
  | present {letter : Char} {sign ds : List Char} {negative : Bool}
      (hletter : letter = 'e' ∨ letter = 'E') (hsign : SignText sign negative)
      (hds : IsDigits ds) :
      ExponentText (letter :: (sign ++ ds))
        (if negative then -(Nat.ofDigitChars 10 ds 0 : Int) else Nat.ofDigitChars 10 ds 0)

/-- Digits with an optional point, all of them together, and how many are behind the point. -/
inductive MantissaText : List Char → List Char → Nat → Prop
  | whole {ds : List Char} (hds : IsDigits ds) : MantissaText ds ds 0
  | point {whole fraction : List Char} (hds : IsDigits (whole ++ fraction)) :
      MantissaText (whole ++ '.' :: fraction) (whole ++ fraction) fraction.length

/-- A numeral behind its sign, and the double that it denotes. Words may have letters of either
    case. -/
inductive UnsignedText (negative : Bool) : List Char → Double → Prop
  | infinity {word : List Char}
      (h : word.map Char.toLower = "inf".toList ∨ word.map Char.toLower = "infinity".toList) :
      UnsignedText negative word (infinite negative)
  | undefined {word : List Char} (h : word.map Char.toLower = "nan".toList) :
      UnsignedText negative word nan
  | decimal {mantissa digits exponent : List Char} {places : Nat} {e : Int}
      (hmantissa : MantissaText mantissa digits places) (hexponent : ExponentText exponent e) :
      UnsignedText negative (mantissa ++ exponent)
        (ofDecimal negative (Nat.ofDigitChars 10 digits 0) (e - places))

/-- A numeral and the double that it denotes. -/
inductive NumeralText : List Char → Double → Prop
  | mk {sign body : List Char} {negative : Bool} {x : Double} (hsign : SignText sign negative)
      (hbody : UnsignedText negative body x) : NumeralText (sign ++ body) x

/-! ## Signs -/

/-- The text does not begin with a sign. -/
def Unsigned (cs : List Char) : Prop :=
  ∀ c ∈ cs.head?, c ≠ '+' ∧ c ≠ '-'

theorem Unsigned.ne_cons {cs : List Char} (h : Unsigned cs) (rest : List Char) :
    cs ≠ '+' :: rest ∧ cs ≠ '-' :: rest := by
  constructor
  · rintro rfl
    exact (h '+' rfl).1 rfl
  · rintro rfl
    exact (h '-' rfl).2 rfl

/-- Every text has a sign, or none, in front. -/
theorem exists_signText (cs : List Char) :
    ∃ sign negative rest, SignText sign negative ∧ (sign = [] → Unsigned rest) ∧
      cs = sign ++ rest := by
  by_cases hcs : Unsigned cs
  · exact ⟨[], false, cs, .absent, fun _ => hcs, rfl⟩
  · unfold Unsigned at hcs
    push Not at hcs
    obtain ⟨c, hc, hsign⟩ := hcs
    obtain ⟨rest, rfl⟩ := List.head?_eq_some_iff.mp hc
    by_cases hplus : c = '+'
    · exact ⟨['+'], false, rest, .plus, by simp, by rw [hplus]; rfl⟩
    · exact ⟨['-'], true, rest, .minus, by simp, by rw [hsign hplus]; rfl⟩

theorem ofNumeral?_sign {sign rest : List Char} {negative : Bool} (hsign : SignText sign negative)
    (hrest : sign = [] → Unsigned rest) :
    ofNumeral? (sign ++ rest) = ofUnsigned? negative rest := by
  cases hsign with
  | plus => rfl
  | minus => rfl
  | absent =>
    rw [List.nil_append, ofNumeral?]
    · exact fun cs => ((hrest rfl).ne_cons cs).2
    · exact fun cs => ((hrest rfl).ne_cons cs).1

/-! ## Exponents -/

theorem isDigits_iff {ds : List Char} :
    (!ds.isEmpty && ds.all Char.isDigit) = true ↔ IsDigits ds := by
  simp [IsDigits]

theorem unsigned_of_isDigits {ds : List Char} (h : IsDigits ds) : Unsigned ds := by
  intro c hc
  have hdigit := h.2 c (List.mem_of_mem_head? hc)
  constructor <;> rintro rfl <;> cases hdigit

theorem exponentOf?_sign {letter : Char} {sign rest : List Char} {negative : Bool}
    (hletter : letter = 'e' ∨ letter = 'E') (hsign : SignText sign negative)
    (hrest : sign = [] → Unsigned rest) :
    exponentOf? (letter :: (sign ++ rest)) =
      if !rest.isEmpty && rest.all Char.isDigit then
        some (if negative then -(natOfDecimal rest : Int) else natOfDecimal rest)
      else none := by
  cases hsign with
  | plus => exact if_pos hletter
  | minus => exact if_pos hletter
  | absent =>
    rw [List.nil_append, exponentOf?, if_pos hletter]
    · exact fun cs => ((hrest rfl).ne_cons cs).2
    · exact fun cs => ((hrest rfl).ne_cons cs).1

theorem exponentOf?_eq_some_iff {cs : List Char} {e : Int} :
    exponentOf? cs = some e ↔ ExponentText cs e := by
  constructor
  · intro h
    cases cs with
    | nil =>
      obtain rfl : 0 = e := Option.some.inj h
      exact .absent
    | cons letter cs =>
      by_cases hletter : letter = 'e' ∨ letter = 'E'
      · obtain ⟨sign, negative, ds, hsign, hds, rfl⟩ := exists_signText cs
        rw [exponentOf?_sign hletter hsign hds] at h
        by_cases hdigits : IsDigits ds
        · rw [if_pos (isDigits_iff.mpr hdigits), Option.some.injEq] at h
          rw [← h, natOfDecimal_eq]
          exact .present hletter hsign hdigits
        · rw [if_neg (mt isDigits_iff.mp hdigits)] at h
          cases h
      · have hnone : exponentOf? (letter :: cs) = none := if_neg hletter
        rw [hnone] at h
        cases h
  · intro h
    cases h with
    | absent => rfl
    | present hletter hsign hds =>
      rw [exponentOf?_sign hletter hsign fun _ => unsigned_of_isDigits hds,
        if_pos (isDigits_iff.mpr hds), natOfDecimal_eq]

/-! ## Words and decimal fractions -/

/-- The text is one of the words, in letters of any case. -/
def IsName (cs : List Char) : Prop :=
  (cs.map Char.toLower = "inf".toList ∨ cs.map Char.toLower = "infinity".toList) ∨
    cs.map Char.toLower = "nan".toList

/-- The digits in front of a point, the point or none, the digits behind it, and what follows. -/
structure Parts (whole point fraction rest : List Char) : Prop where
  isDigit_whole : ∀ c ∈ whole, c.isDigit
  isDigit_fraction : ∀ c ∈ fraction, c.isDigit
  point_cases : point = ['.'] ∨ point = [] ∧ fraction = [] ∧ rest.head? ≠ some '.'
  head?_rest : ∀ c ∈ rest.head?, ¬ c.isDigit

theorem not_isDigit_head?_dropWhile (cs : List Char) :
    ∀ c ∈ (cs.dropWhile Char.isDigit).head?, ¬ c.isDigit := by
  intro c hc
  have hnot := List.head?_dropWhile_not Char.isDigit cs
  rw [hc] at hnot
  simpa using hnot

/-- Every text has these parts. -/
theorem exists_parts (cs : List Char) :
    ∃ whole point fraction rest, Parts whole point fraction rest ∧
      cs = whole ++ (point ++ (fraction ++ rest)) := by
  have hdigits : ∀ cs : List Char, ∀ c ∈ cs.takeWhile Char.isDigit, c.isDigit :=
    fun cs c hc => List.mem_takeWhile_imp hc
  have hsplit := List.takeWhile_append_dropWhile (p := Char.isDigit) (l := cs)
  by_cases hpoint : (cs.dropWhile Char.isDigit).head? = some '.'
  · obtain ⟨behind, hbehind⟩ := List.head?_eq_some_iff.mp hpoint
    refine ⟨cs.takeWhile Char.isDigit, ['.'], behind.takeWhile Char.isDigit,
      behind.dropWhile Char.isDigit, ⟨hdigits cs, hdigits behind, .inl rfl,
      not_isDigit_head?_dropWhile behind⟩, ?_⟩
    rw [List.takeWhile_append_dropWhile, List.singleton_append, ← hbehind, hsplit]
  · exact ⟨cs.takeWhile Char.isDigit, [], [], cs.dropWhile Char.isDigit, ⟨hdigits cs, by simp,
      .inr ⟨rfl, rfl, hpoint⟩, not_isDigit_head?_dropWhile cs⟩, hsplit.symm⟩

theorem ofUnsigned?_of_parts (negative : Bool) {whole point fraction rest : List Char}
    (h : Parts whole point fraction rest)
    (hname : ¬ IsName (whole ++ (point ++ (fraction ++ rest)))) :
    ofUnsigned? negative (whole ++ (point ++ (fraction ++ rest))) =
      if whole.isEmpty && fraction.isEmpty then none
      else (exponentOf? rest).map fun exponent =>
        ofDecimal negative (natOfDecimal (whole ++ fraction)) (exponent - fraction.length) := by
  obtain ⟨hinf, hnan⟩ := not_or.mp hname
  unfold ofUnsigned?
  dsimp only
  rw [if_neg hinf, if_neg hnan]
  rcases h.point_cases with rfl | ⟨rfl, rfl, hpoint⟩
  · have hbehind : ∀ c ∈ (['.'] ++ (fraction ++ rest)).head?, ¬ c.isDigit := by
      simp
    rw [takeWhile_digits h.isDigit_whole hbehind, dropWhile_digits h.isDigit_whole hbehind]
    simp only [List.singleton_append, takeWhile_digits h.isDigit_fraction h.head?_rest,
      dropWhile_digits h.isDigit_fraction h.head?_rest]
  · rw [List.nil_append, List.nil_append, takeWhile_digits h.isDigit_whole h.head?_rest,
      dropWhile_digits h.isDigit_whole h.head?_rest]
    split
    · next behind => exact absurd rfl hpoint
    · rfl

/-- A text that begins with a digit or a point is no word. -/
theorem not_isName_cons {c : Char} (h : c.isDigit ∨ c = '.') (cs : List Char) :
    ¬ IsName (c :: cs) := by
  have hlower : c.toLower ≠ 'i' ∧ c.toLower ≠ 'n' := by
    rcases h with hdigit | rfl
    · rw [toLower_of_isDigit hdigit]
      constructor <;> rintro rfl <;> cases hdigit
    · decide
  rintro ((h | h) | h)
  · exact hlower.1 (List.cons.inj h).1
  · exact hlower.1 (List.cons.inj h).1
  · exact hlower.2 (List.cons.inj h).1

theorem ofUnsigned?_of_inf (negative : Bool) {cs : List Char}
    (h : cs.map Char.toLower = "inf".toList ∨ cs.map Char.toLower = "infinity".toList) :
    ofUnsigned? negative cs = some (infinite negative) :=
  if_pos h

theorem ofUnsigned?_of_nan (negative : Bool) {cs : List Char}
    (h : cs.map Char.toLower = "nan".toList) : ofUnsigned? negative cs = some nan := by
  unfold ofUnsigned?
  dsimp only
  rw [h, if_neg (by decide), if_pos rfl]

theorem MantissaText.cons {cs ds : List Char} {places : Nat} (h : MantissaText cs ds places) :
    ∃ c rest, cs = c :: rest ∧ (c.isDigit ∨ c = '.') := by
  cases h with
  | whole hds =>
    obtain ⟨c, rest, rfl⟩ := List.exists_cons_of_ne_nil hds.1
    exact ⟨c, rest, rfl, .inl (hds.2 c List.mem_cons_self)⟩
  | @point whole fraction hds =>
    cases whole with
    | nil => exact ⟨'.', fraction, rfl, .inr rfl⟩
    | cons c whole => exact ⟨c, _, rfl, .inl (hds.2 c List.mem_cons_self)⟩

theorem ExponentText.head?_cases {cs : List Char} {e : Int} (h : ExponentText cs e) :
    ∀ c ∈ cs.head?, c = 'e' ∨ c = 'E' := by
  intro c hc
  cases h with
  | absent => cases hc
  | present hletter _ _ =>
    cases hc
    exact hletter

/-- Mantissa and exponent are the parts that the reader finds. -/
theorem MantissaText.exists_parts {mantissa digits exponent : List Char} {places : Nat} {e : Int}
    (hmantissa : MantissaText mantissa digits places) (hexponent : ExponentText exponent e) :
    ∃ whole point fraction, Parts whole point fraction exponent ∧
      mantissa ++ exponent = whole ++ (point ++ (fraction ++ exponent)) ∧
      digits = whole ++ fraction ∧ places = fraction.length ∧ digits ≠ [] := by
  have hhead : ∀ c ∈ exponent.head?, ¬ c.isDigit ∧ c ≠ '.' := by
    intro c hc
    rcases hexponent.head?_cases c hc with rfl | rfl <;> decide
  cases hmantissa with
  | whole hds =>
    refine ⟨mantissa, [], [], ⟨hds.2, by simp, .inr ⟨rfl, rfl, ?_⟩, fun c hc => (hhead c hc).1⟩,
      rfl, by simp, rfl, hds.1⟩
    exact fun hpoint => (hhead '.' hpoint).2 rfl
  | @point whole fraction hds =>
    refine ⟨whole, ['.'], fraction, ⟨fun c hc => hds.2 c (List.mem_append_left _ hc),
      fun c hc => hds.2 c (List.mem_append_right _ hc), .inl rfl, fun c hc => (hhead c hc).1⟩, ?_,
      rfl, rfl, hds.1⟩
    simp

/-- Parts with a digit in them are a mantissa. -/
theorem Parts.mantissaText {whole point fraction rest : List Char}
    (h : Parts whole point fraction rest) (hne : whole ++ fraction ≠ []) :
    MantissaText (whole ++ (point ++ fraction)) (whole ++ fraction) fraction.length := by
  have hdigits : IsDigits (whole ++ fraction) := by
    refine ⟨hne, fun c hc => ?_⟩
    exact (List.mem_append.mp hc).elim (h.isDigit_whole c) (h.isDigit_fraction c)
  rcases h.point_cases with rfl | ⟨rfl, rfl, -⟩
  · exact .point hdigits
  · simp only [List.append_nil] at hdigits ⊢
    exact .whole hdigits

theorem ofUnsigned?_eq_some_iff {negative : Bool} {cs : List Char} {x : Double} :
    ofUnsigned? negative cs = some x ↔ UnsignedText negative cs x := by
  constructor
  · intro h
    by_cases hname : IsName cs
    · rcases hname with hinf | hnan
      · rw [ofUnsigned?_of_inf negative hinf, Option.some.injEq] at h
        exact h ▸ .infinity hinf
      · rw [ofUnsigned?_of_nan negative hnan, Option.some.injEq] at h
        exact h ▸ .undefined hnan
    · obtain ⟨whole, point, fraction, rest, hparts, rfl⟩ := exists_parts cs
      rw [ofUnsigned?_of_parts negative hparts hname] at h
      split_ifs at h with hnone
      obtain ⟨e, he, rfl⟩ := Option.map_eq_some_iff.mp h
      have hne : whole ++ fraction ≠ [] := by simpa using hnone
      have hdecimal : UnsignedText negative _ _ :=
        .decimal (hparts.mantissaText hne) (exponentOf?_eq_some_iff.mp he)
      rw [natOfDecimal_eq]
      simpa using hdecimal
  · intro h
    cases h with
    | infinity hinf => exact ofUnsigned?_of_inf negative hinf
    | undefined hnan => exact ofUnsigned?_of_nan negative hnan
    | @decimal mantissa digits exponent places e hmantissa hexponent =>
      have hname : ¬ IsName (mantissa ++ exponent) := by
        obtain ⟨c, behind, rfl, hc⟩ := hmantissa.cons
        exact not_isName_cons hc (behind ++ exponent)
      obtain ⟨whole, point, fraction, hparts, htext, rfl, rfl, hne⟩ :=
        hmantissa.exists_parts hexponent
      rw [htext] at hname ⊢
      rw [ofUnsigned?_of_parts negative hparts hname, if_neg (by simpa using hne),
        exponentOf?_eq_some_iff.mpr hexponent, Option.map_some, natOfDecimal_eq]

/-! ## Numerals -/

/-- The letters of the words. -/
theorem IsName.toLower_mem {cs : List Char} (h : IsName cs) {c : Char} (hc : c ∈ cs) :
    c.toLower ∈ "infinityna".toList := by
  have hmem : c.toLower ∈ cs.map Char.toLower := List.mem_map_of_mem hc
  have hwords : ∀ word ∈ ["inf", "infinity", "nan"], ∀ d ∈ word.toList,
      d ∈ "infinityna".toList := by
    simp
  rcases h with (h | h) | h <;> rw [h] at hmem
  · exact hwords "inf" (by simp) _ hmem
  · exact hwords "infinity" (by simp) _ hmem
  · exact hwords "nan" (by simp) _ hmem

/-- A numeral behind its sign does not begin with a sign. -/
theorem UnsignedText.unsigned {negative : Bool} {cs : List Char} {x : Double}
    (h : UnsignedText negative cs x) : Unsigned cs := by
  have hname : IsName cs → Unsigned cs := by
    intro hname c hc
    have hletter := hname.toLower_mem (List.mem_of_mem_head? hc)
    constructor <;> rintro rfl <;> revert hletter <;> decide
  cases h with
  | infinity hinf => exact hname (.inl hinf)
  | undefined hnan => exact hname (.inr hnan)
  | decimal hmantissa hexponent =>
    obtain ⟨d, behind, rfl, hd⟩ := hmantissa.cons
    rintro c hc
    obtain rfl : d = c := Option.some.inj hc
    constructor <;> rintro rfl <;> revert hd <;> decide

theorem ofNumeral?_eq_some_iff {cs : List Char} {x : Double} :
    ofNumeral? cs = some x ↔ NumeralText cs x := by
  constructor
  · intro h
    obtain ⟨sign, negative, body, hsign, hbody, rfl⟩ := exists_signText cs
    rw [ofNumeral?_sign hsign hbody, ofUnsigned?_eq_some_iff] at h
    exact .mk hsign h
  · rintro ⟨hsign, hbody⟩
    rw [ofNumeral?_sign hsign fun _ => hbody.unsigned, ofUnsigned?_eq_some_iff]
    exact hbody

/-- The text of an integer denotes the double nearest to it. -/
theorem ofNumeral?_toString {n : Int} (h : decimalLength n.natAbs ≤ 400) :
    ofNumeral? (toString n).toList = some (ofInt n) := by
  have hsign : SignText (signText (n < 0)) (n < 0) := by
    unfold signText
    split_ifs with hn
    · rw [hn]
      exact .minus
    · rw [Bool.eq_false_iff.mpr hn]
      exact .absent
  have hbody : UnsignedText (n < 0) (Nat.toDigits 10 n.natAbs ++ []) _ :=
    .decimal (.whole ⟨Nat.toDigits_ne_nil, fun _ => isDigit_toDigits⟩) .absent
  have hvalue : ofDecimal (n < 0) n.natAbs 0 = ofInt n := by
    unfold ofDecimal ofInt
    dsimp only
    by_cases hn : n.natAbs = 0
    · rw [if_pos (.inl hn), hn]
      rfl
    · rw [if_neg (by omega), if_neg (by omega), if_pos le_rfl]
      simp
  rw [List.append_nil, Nat.ofDigitChars_ten_toDigits, Int.ofNat_zero, Int.sub_zero, hvalue] at hbody
  rw [toList_toString_int]
  exact ofNumeral?_eq_some_iff.mpr (.mk hsign hbody)

/-! ## Characters -/

theorem SignText.not_mem_space {cs : List Char} {negative : Bool} (h : SignText cs negative) :
    ' ' ∉ cs := by
  cases h <;> decide

theorem IsDigits.not_mem_space {ds : List Char} (h : IsDigits ds) : ' ' ∉ ds :=
  fun hmem => absurd (h.2 ' ' hmem) (by decide)

theorem MantissaText.not_mem_space {cs ds : List Char} {places : Nat}
    (h : MantissaText cs ds places) : ' ' ∉ cs := by
  cases h with
  | whole hds => exact hds.not_mem_space
  | point hds => simpa using hds.not_mem_space

theorem ExponentText.not_mem_space {cs : List Char} {e : Int} (h : ExponentText cs e) :
    ' ' ∉ cs := by
  cases h with
  | absent => exact List.not_mem_nil
  | present hletter hsign hds =>
    have hspace : ∀ letter : Char, letter = 'e' ∨ letter = 'E' → ' ' ≠ letter := by
      rintro letter (rfl | rfl) <;> decide
    simp only [List.mem_cons, List.mem_append, not_or]
    exact ⟨hspace _ hletter, hsign.not_mem_space, hds.not_mem_space⟩

/-- No numeral has a space in it. -/
theorem NumeralText.not_mem_space {cs : List Char} {x : Double} (h : NumeralText cs x) :
    ' ' ∉ cs := by
  obtain ⟨hsign, hbody⟩ := h
  rw [List.mem_append, not_or]
  refine ⟨hsign.not_mem_space, ?_⟩
  cases hbody with
  | infinity hinf =>
    exact fun hmem => absurd (IsName.toLower_mem (.inl hinf) hmem) (by decide)
  | undefined hnan =>
    exact fun hmem => absurd (IsName.toLower_mem (.inr hnan) hmem) (by decide)
  | decimal hmantissa hexponent =>
    rw [List.mem_append, not_or]
    exact ⟨hmantissa.not_mem_space, hexponent.not_mem_space⟩

end Stepflow.Double
