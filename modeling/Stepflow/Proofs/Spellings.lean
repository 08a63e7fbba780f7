import Mathlib
import Stepflow.Proofs.Boundary
import Stepflow.Proofs.JsonText
import Stepflow.Tree.Literal

/-!
# Spellings of a literal

A character can be written in a literal in many ways. The reader takes one character after the
other, and each escape takes what belongs to it and nothing of what follows. So a literal denotes
what was meant, whichever way was chosen for each of its characters.

* `Spelling`, `Spelled`: one way to write a character, and a text with a way for each character.

Results:
* `unescape_unit`, `unescape_byte`, `unescape_braced`: what an escape takes.
* `unescape_escape`: what JSON writes for a character denotes it.
* `Spelling.unescape_text`: a character is read, whatever follows it.
* `stringValue_spelled`: literals denote their texts.
-/

namespace Stepflow.Literal

open Text

/-! ## Escapes -/

theorem toNat_lt (c : Char) : c.toNat < 0x110000 := by
  have hvalid : c.toNat < 0xD800 ∨ 0xDFFF < c.toNat ∧ c.toNat < 0x110000 := c.valid
  omega

theorem natOfDigits?_of_isNumeral {n : Nat} {ds : List Char} (h : IsNumeral 16 n ds) :
    natOfDigits? 16 ds = some n :=
  h.natOfDigits?_eq (by decide) (by decide)

/-- The digits of its code point denote a character. -/
theorem codePoint_of_natOfDigits? {c : Char} {ds : List Char}
    (h : natOfDigits? 16 ds = some c.toNat) : codePoint ds = c := by
  have hvalid : c.toNat.isValidChar := c.valid
  have hword : c.toNat < wordCount := (toNat_lt c).trans (by decide)
  rw [codePoint, wordOfNumeral?_of_natOfDigits? h hword]
  dsimp only
  rw [dif_pos hvalid]
  rfl

section Unescape

variable {ds : List Char} (cs : List Char)

theorem unescape_of_ne {c : Char} (h : c ≠ '\\') : unescape (c :: cs) = c :: unescape cs := by
  rw [unescape] <;> simp_all

theorem unescape_letter {d : Char} (h : d ∉ ['\r', '\n', 'x', 'u']) :
    unescape ('\\' :: d :: cs) = (letterEscapes.lookup d).getD d :: unescape cs := by
  simp only [List.mem_cons, List.not_mem_nil, or_false, not_or] at h
  rw [unescape] <;> simp_all

theorem unescape_byte (h : ds.length = 2) :
    unescape ('\\' :: 'x' :: (ds ++ cs)) = codePoint ds :: unescape cs := by
  rw [unescape, List.take_left' h, List.drop_left' h]

theorem unescape_unit (h : ds.length = 4) (hbrace : '{' ∉ ds) :
    unescape ('\\' :: 'u' :: (ds ++ cs)) = codePoint ds :: unescape cs := by
  rw [unescape, List.take_left' h, List.drop_left' h]
  -- the digits do not begin with a brace, so they are four
  intro rest hrest
  rcases ds with _ | ⟨d, ds⟩
  · simp at h
  · rw [List.cons_append, List.cons.injEq] at hrest
    exact hbrace (by simp [hrest.1])

theorem unescape_braced (h : '}' ∉ ds) :
    unescape ('\\' :: 'u' :: '{' :: (ds ++ '}' :: cs)) = codePoint ds :: unescape cs := by
  have hds : ∀ d ∈ ds, (d != '}') = true := by
    intro d hd
    simpa using fun heq : d = '}' => h (heq ▸ hd)
  rw [unescape, List.takeWhile_append_of_pos hds, List.dropWhile_append_of_pos hds]
  simp

/-- What JSON writes for a character denotes it. -/
theorem unescape_escape (c : Char) : unescape (Json.escape c ++ cs) = c :: unescape cs := by
  by_cases hshort : c ∈ ['"', '\\', '\x08', '\x0c', '\n', '\r', '\t']
  · simp only [List.mem_cons, List.not_mem_nil, or_false] at hshort
    rcases hshort with rfl | rfl | rfl | rfl | rfl | rfl | rfl <;>
      exact unescape_letter cs (by decide)
  · rw [Json.escape_of_not_mem hshort]
    split
    · next hcontrol =>
      have hdigits := Json.Quoted.natOfDigits?_hexDigit hcontrol
      have hread := unescape_unit cs rfl (not_mem_of_natOfDigits? hdigits (by decide))
      rwa [codePoint_of_natOfDigits? hdigits] at hread
    · exact unescape_of_ne cs fun hback => hshort (by simp [hback])

end Unescape

/-! ## Spellings -/

/-- One way to write a character. -/
inductive Spelling (c : Char) where
  /-- As JSON writes it: escaped only where it must be. -/
  | plain
  /-- With two hexadecimal digits behind `\x`. -/
  | byte (digits : List Char) (numeral : IsNumeral 16 c.toNat digits) (two : digits.length = 2)
  /-- With four hexadecimal digits behind `\u`. -/
  | unit (digits : List Char) (numeral : IsNumeral 16 c.toNat digits) (four : digits.length = 4)
  /-- With hexadecimal digits between braces behind `\u`. -/
  | braced (digits : List Char) (numeral : IsNumeral 16 c.toNat digits)

namespace Spelling

variable {c : Char}

/-- What is written. -/
def text : Spelling c → List Char
  | plain => Json.escape c
  | byte digits _ _ => '\\' :: 'x' :: digits
  | unit digits _ _ => '\\' :: 'u' :: digits
  | braced digits _ => '\\' :: 'u' :: '{' :: digits ++ ['}']

/-- A character is read, whatever follows it. -/
theorem unescape_text (s : Spelling c) (cs : List Char) :
    unescape (s.text ++ cs) = c :: unescape cs := by
  cases s with
  | plain => exact unescape_escape cs c
  | byte digits numeral two =>
    rw [text, List.cons_append, List.cons_append, unescape_byte cs two,
      codePoint_of_natOfDigits? (natOfDigits?_of_isNumeral numeral)]
  | unit digits numeral four =>
    have hread := natOfDigits?_of_isNumeral numeral
    have hbrace : '{' ∉ digits := not_mem_of_natOfDigits? hread (by decide)
    rw [text, List.cons_append, List.cons_append, unescape_unit cs four hbrace,
      codePoint_of_natOfDigits? hread]
  | braced digits numeral =>
    have hread := natOfDigits?_of_isNumeral numeral
    have hbrace : '}' ∉ digits := not_mem_of_natOfDigits? hread (by decide)
    have htext : text (braced digits numeral) ++ cs =
        '\\' :: 'u' :: '{' :: (digits ++ '}' :: cs) := by
      simp [text]
    rw [htext, unescape_braced cs hbrace, codePoint_of_natOfDigits? hread]

end Spelling

/-- Characters, each with a way to write it. -/
abbrev Spelled := List ((c : Char) × Spelling c)

namespace Spelled

/-- The characters. -/
def value (spelled : Spelled) : List Char :=
  spelled.map (·.1)

/-- What is written. -/
def text (spelled : Spelled) : List Char :=
  spelled.flatMap (·.2.text)

/-- The characters are read one after the other. -/
theorem unescape_text (spelled : Spelled) : unescape spelled.text = spelled.value := by
  induction spelled with
  | nil =>
    rw [text, List.flatMap_nil, unescape]
    rfl
  | cons s spelled ih =>
    rw [text, List.flatMap_cons, s.2.unescape_text]
    exact congrArg (s.1 :: ·) ih

end Spelled

/-! ## Literals -/

/-- Any character of one byte can stand at both ends. -/
theorem stringValue_between {quote : Char} (h : quote.utf8Size = 1) (cs : List Char) :
    stringValue (String.ofList (quote :: cs ++ [quote])) = String.ofList (unescape cs) := by
  have hlength : byteLength (quote :: cs ++ [quote]) - 1 = byteLength ([quote] ++ cs) := by
    simp only [List.cons_append, List.nil_append, byteLength_cons, byteLength_append,
      byteLength_nil, h]
    omega
  have hinner : slice (quote :: cs ++ [quote]) 1 (byteLength ([quote] ++ cs)) = cs := by
    have hslice := slice_append [quote] cs [quote]
    rwa [byteLength_cons, byteLength_nil, h] at hslice
  rw [stringValue, String.toList_ofList, hlength, hinner]

theorem stringValue_quoted (cs : List Char) :
    stringValue (String.ofList ('"' :: cs ++ ['"'])) = String.ofList (unescape cs) :=
  stringValue_between (by decide) cs

/-- The literal that JSON writes for a text denotes it, and so does every literal in which each
    character of the text is written in one of its ways. All characters can be written with their
    code points between braces, and those up to `0xFF`, but no others, with two digits. -/
theorem stringValue_spelled :
    (∀ s : String, stringValue (String.ofList (Json.quote s)) = s) ∧
      (∀ spelled : Spelled, stringValue (String.ofList ('"' :: spelled.text ++ ['"'])) =
        String.ofList spelled.value) ∧
      ∀ c : Char, IsNumeral 16 c.toNat (Nat.toDigits 16 c.toNat) ∧
        ((∃ digits, IsNumeral 16 c.toNat digits ∧ digits.length = 2) ↔ c.toNat ≤ 0xFF) := by
  refine ⟨fun s => ?_, fun spelled => ?_, fun c => ⟨?_, ?_⟩⟩
  · have hread : unescape (s.toList.flatMap Json.escape) = s.toList := by
      have hplain := Spelled.unescape_text (s.toList.map fun c => ⟨c, .plain⟩)
      rw [Spelled.text, Spelled.value, List.flatMap_map, List.map_map] at hplain
      exact hplain.trans (List.map_id _)
    rw [Json.quote, stringValue_quoted, hread, String.ofList_toList]
  · rw [stringValue_quoted, spelled.unescape_text]
  · exact isNumeral_toDigits (by decide) (by decide) c.toNat
  · rw [exists_isNumeral_iff (by decide) (by decide) (by decide)]
    omega

/-- A text in which escapes are followed by digits, by braces and by each other. -/
def mixedText : Spelled :=
  [⟨'"', .byte ['2', '2'] ⟨0, by decide⟩ rfl⟩, ⟨'é', .byte ['E', '9'] ⟨0, by decide⟩ rfl⟩,
    ⟨'1', .plain⟩, ⟨'😀', .braced ['0', '1', 'f', '6', '0', '0'] ⟨1, by decide⟩⟩, ⟨'}', .plain⟩,
    ⟨'\n', .plain⟩, ⟨'\\', .unit ['0', '0', '5', 'C'] ⟨2, by decide⟩ rfl⟩]

theorem mixedText_value :
    String.ofList ('"' :: mixedText.text ++ ['"']) =
      "\"\\x22\\xE91\\u\x7b01f600\x7d\x7d\\n\\u005C\"" ∧
    stringValue (String.ofList ('"' :: mixedText.text ++ ['"'])) = "\"é1😀\x7d\n\\" :=
  ⟨by cbv, stringValue_spelled.2.1 mixedText⟩

end Stepflow.Literal
