import Mathlib
import Stepflow.Proofs.Spellings

/-!
# Code units

A character up to `0xFFFF` is one code unit of 16 bits, and every other character is a pair of them,
the halves of which are no characters. An escape of four digits writes one unit. JSON puts the two
halves of a pair together again. A literal takes each unit on its own, so it loses the characters
beyond `0xFFFF` and no others.

* `codeUnits`, `textUnits`: the units of a character and of a text.
* `Escaped`: units that are written as escapes.
* `unitChar`: what a literal takes for a unit.

Results:
* `exists_escaped`: every text can be written with escapes only.
* `Escaped.read?_eq`: JSON reads a text that is written so.
* `Escaped.unescape_eq`, `map_unitChar_codeUnits`: what a literal makes of the units.
* `stringValue_escaped`: which texts a literal denotes when its characters are written so.
-/

namespace Stepflow.Literal

open Text

/-! ## Units -/

/-- The code units of a character. -/
def codeUnits (c : Char) : List Nat :=
  if c.toNat < 0x10000 then [c.toNat]
  else [0xD800 + (c.toNat - 0x10000) / 0x400, 0xDC00 + (c.toNat - 0x10000) % 0x400]

/-- The code units of a text. -/
def textUnits (cs : List Char) : List Nat :=
  cs.flatMap codeUnits

theorem codeUnits_of_lt {c : Char} (h : c.toNat < 0x10000) : codeUnits c = [c.toNat] :=
  if_pos h

/-- A pair of units, from which the code point can be computed. -/
theorem exists_codeUnits {c : Char} (h : 0x10000 ≤ c.toNat) :
    ∃ high low, codeUnits c = [high, low] ∧ (0xD800 ≤ high ∧ high < 0xDC00) ∧
      (0xDC00 ≤ low ∧ low < 0xE000) ∧
      c.toNat = 0x10000 + (high - 0xD800) * 0x400 + (low - 0xDC00) := by
  have hlt := toNat_lt c
  refine ⟨_, _, if_neg (by omega), ?_, ?_, ?_⟩ <;> omega

theorem lt_of_mem_codeUnits {c : Char} {n : Nat} (h : n ∈ codeUnits c) : n < 0x10000 := by
  rcases Nat.lt_or_ge c.toNat 0x10000 with hc | hc
  · rw [codeUnits_of_lt hc, List.mem_singleton] at h
    omega
  · obtain ⟨high, low, hunits, hhigh, hlow, -⟩ := exists_codeUnits hc
    rw [hunits, List.mem_cons, List.mem_singleton] at h
    omega

/-! ## Escapes -/

/-- The units are written one after the other, each with four hexadecimal digits behind `\u`. -/
inductive Escaped : List Nat → List Char → Prop
  | nil : Escaped [] []
  | unit {n : Nat} {ns : List Nat} {ds cs : List Char} (numeral : IsNumeral 16 n ds)
      (four : ds.length = 4) (rest : Escaped ns cs) : Escaped (n :: ns) ('\\' :: 'u' :: (ds ++ cs))

/-- Units of 16 bits can be written. -/
theorem exists_escaped_of_lt {ns : List Nat} (h : ∀ n ∈ ns, n < 0x10000) :
    ∃ text, Escaped ns text := by
  induction ns with
  | nil => exact ⟨[], .nil⟩
  | cons n ns ih =>
    obtain ⟨text, htext⟩ := ih fun m hm => h m (List.mem_cons_of_mem n hm)
    obtain ⟨ds, hds, hfour⟩ :=
      (exists_isNumeral_iff (by decide : 1 < 16) (by decide) (by decide : 0 < 4)).mpr
        (h n List.mem_cons_self)
    exact ⟨_, .unit hds hfour htext⟩

/-- Every text can be written with escapes only. -/
theorem exists_escaped (cs : List Char) : ∃ text, Escaped (textUnits cs) text := by
  apply exists_escaped_of_lt
  intro n hn
  obtain ⟨c, -, hc⟩ := List.mem_flatMap.mp hn
  exact lt_of_mem_codeUnits hc

theorem toNat_lt_of_digitValue? {c : Char} (h : digitValue? c ≠ none) : c.toNat < 0x80 := by
  have hletter : ∀ {low high : Char}, low ≤ c ∧ c ≤ high → high.toNat < 0x80 → c.toNat < 0x80 :=
    fun hc hhigh => Nat.lt_of_le_of_lt (Char.le_def.mp hc.2) hhigh
  unfold digitValue? at h
  split_ifs at h with hdigit hlower hupper
  · rw [isDigit_iff] at hdigit
    omega
  · exact hletter hlower (by decide)
  · exact hletter hupper (by decide)
  · exact absurd rfl h

section Readers

variable {ns : List Nat} {text : List Char}

theorem Escaped.ascii (h : Escaped ns text) : ∀ c ∈ text, c.toNat < 0x80 := by
  induction h with
  | nil => simp
  | unit numeral four rest ih =>
    intro c hc
    simp only [List.mem_cons, List.mem_append] at hc
    rcases hc with rfl | rfl | hc | hc
    · decide
    · decide
    · apply toNat_lt_of_digitValue?
      exact fun hnone => not_mem_of_natOfDigits? (natOfDigits?_of_isNumeral numeral) hnone hc
    · exact ih c hc

/-! ## JSON -/

theorem units?_escaped (h : Escaped ns text) (found : List Nat) (rest : List Char) :
    Json.Quoted.units? found (text ++ '"' :: rest) = some (ns.reverse ++ found, rest) := by
  induction h generalizing found with
  | nil => rfl
  | @unit n ns ds cs numeral four _ ih =>
    obtain ⟨a, b, c, d, rfl⟩ : ∃ a b c d, ds = [a, b, c, d] := List.length_eq_four.mp four
    change Json.Quoted.units? found ('\\' :: 'u' :: a :: b :: c :: d :: (cs ++ '"' :: rest)) = _
    rw [Json.Quoted.units?, natOfDigits?_of_isNumeral numeral]
    dsimp only
    rw [ih, List.reverse_cons, List.append_assoc]
    rfl

/-- The units of a character are put together. -/
theorem characters?_codeUnits (found : List Char) (c : Char) (units : List Nat) :
    Json.Quoted.characters? found ((codeUnits c).reverse ++ units) =
      Json.Quoted.characters? (c :: found) units := by
  rcases Nat.lt_or_ge c.toNat 0x10000 with hc | hc
  · rw [codeUnits_of_lt hc]
    exact Json.Quoted.characters?_cons_toNat found c units
  · obtain ⟨high, low, hunits, hhigh, hlow, hvalue⟩ := exists_codeUnits hc
    have hpair : (Json.Quoted.isLow low && Json.Quoted.isHigh high) = true := by
      simp [Json.Quoted.isLow, Json.Quoted.isHigh, hhigh, hlow]
    rw [hunits]
    change Json.Quoted.characters? found (low :: high :: units) = _
    rw [Json.Quoted.characters?, if_pos hpair, ← hvalue, Char.ofNat_toNat]

theorem characters?_textUnits (found cs : List Char) :
    Json.Quoted.characters? found (textUnits cs).reverse = some (cs ++ found) := by
  -- The units are taken from the last to the first.
  induction cs using List.reverseRecOn generalizing found with
  | nil => rfl
  | append_singleton cs c ih =>
    have hunits : (textUnits (cs ++ [c])).reverse =
        (codeUnits c).reverse ++ (textUnits cs).reverse := by
      simp [textUnits]
    rw [hunits, characters?_codeUnits, ih, List.append_assoc]
    rfl

/-- JSON reads the text whose units are written. -/
theorem Escaped.read?_eq {s : String} (h : Escaped (textUnits s.toList) text) (rest : List Char) :
    Json.Quoted.read? (text ++ '"' :: rest) = some (some s, rest) := by
  rw [Json.Quoted.read?, units?_escaped h, List.append_nil, Option.map_some]
  dsimp only
  rw [characters?_textUnits, List.append_nil, Option.map_some, String.ofList_toList]

/-! ## Literals -/

/-- What a literal takes for a unit. -/
def unitChar (n : Nat) : Char :=
  if h : n.isValidChar then Char.ofNatAux n h else replacement

theorem codePoint_of_four {n : Nat} {ds : List Char} (h : IsNumeral 16 n ds)
    (hfour : ds.length = 4) : codePoint ds = unitChar n := by
  have hn : n < 16 ^ 4 :=
    (exists_isNumeral_iff (by decide) (by decide) (by decide)).mp ⟨ds, h, hfour⟩
  have hword : n < wordCount := hn.trans (by decide)
  rw [codePoint, wordOfNumeral?_of_natOfDigits? (natOfDigits?_of_isNumeral h) hword]
  rfl

/-- Each unit is taken on its own. -/
theorem Escaped.unescape_eq (h : Escaped ns text) : unescape text = ns.map unitChar := by
  induction h with
  | nil => rw [unescape]; rfl
  | unit numeral four _ ih =>
    have hbrace := not_mem_of_natOfDigits? (natOfDigits?_of_isNumeral numeral)
      (by decide : digitValue? '{' = none)
    rw [unescape_unit _ four hbrace, codePoint_of_four numeral four, ih]
    rfl

/-- What a literal makes of a character whose units are written. -/
def unpaired (c : Char) : List Char :=
  if c.toNat ≤ 0xFFFF then [c] else [replacement, replacement]

/-- Halves of a pair are no characters. -/
theorem map_unitChar_codeUnits (c : Char) : (codeUnits c).map unitChar = unpaired c := by
  unfold unpaired
  split_ifs with hc
  · have hvalid : c.toNat.isValidChar := c.valid
    rw [codeUnits_of_lt (by omega), List.map_singleton, unitChar, dif_pos hvalid]
    rfl
  · have hhalf : ∀ n, 0xD800 ≤ n → n < 0xE000 → unitChar n = replacement := by
      intro n hlow hhigh
      refine dif_neg fun hvalid : n < 0xD800 ∨ 0xDFFF < n ∧ n < 0x110000 => ?_
      omega
    obtain ⟨high, low, hunits, hhigh, hlow, -⟩ := exists_codeUnits (by omega : 0x10000 ≤ c.toNat)
    rw [hunits, List.map_cons, List.map_singleton, hhalf high (by omega) (by omega),
      hhalf low (by omega) (by omega)]

theorem Escaped.unescape_textUnits {cs : List Char} (h : Escaped (textUnits cs) text) :
    unescape text = cs.flatMap unpaired := by
  rw [h.unescape_eq, textUnits, List.map_flatMap]
  simp only [map_unitChar_codeUnits]

end Readers

theorem length_flatMap_unpaired (cs : List Char) :
    (cs.flatMap unpaired).length = cs.length + cs.countP (fun c => 0xFFFF < c.toNat) := by
  induction cs with
  | nil => rfl
  | cons c cs ih =>
    have hhere : (unpaired c).length = 1 + if 0xFFFF < c.toNat then 1 else 0 := by
      unfold unpaired
      by_cases hc : c.toNat ≤ 0xFFFF
      · rw [if_pos hc, if_neg (by omega)]
        rfl
      · rw [if_neg hc, if_pos (by omega)]
        rfl
    simp only [List.flatMap_cons, List.length_append, List.length_cons, List.countP_cons, ih, hhere,
      decide_eq_true_eq]
    omega

theorem flatMap_unpaired_eq_self_iff (cs : List Char) :
    cs.flatMap unpaired = cs ↔ ∀ c ∈ cs, c.toNat ≤ 0xFFFF := by
  constructor
  · intro h c hc
    -- Each pair makes the text longer.
    have hcount : cs.countP (fun c => 0xFFFF < c.toNat) = 0 := by
      have hlength := length_flatMap_unpaired cs
      rw [h] at hlength
      omega
    simpa using List.countP_eq_zero.mp hcount c hc
  · intro h
    have hkept : ∀ c ∈ cs, unpaired c = [c] := fun c hc => if_pos (h c hc)
    rw [List.flatMap_congr hkept, List.flatMap_singleton']

/-- Every text can be written with escapes of four digits only, one for each of its code units, and
    all of that is ASCII. JSON reads it back. In a literal each half of a pair becomes a replacement
    character, so the literal denotes the text if and only if it has no character beyond
    `0xFFFF`. -/
theorem stringValue_escaped (s : String) {quote : Char} (hquote : quote ∈ ['"', '\'']) :
    (∃ text, Escaped (textUnits s.toList) text) ∧
      ∀ text, Escaped (textUnits s.toList) text →
        (∀ c ∈ text, c.toNat < 0x80) ∧
        Json.Quoted.read? (text ++ ['"']) = some (some s, []) ∧
        stringValue (String.ofList (quote :: text ++ [quote])) =
          String.ofList (s.toList.flatMap unpaired) ∧
        (stringValue (String.ofList (quote :: text ++ [quote])) = s ↔
          ∀ c ∈ s.toList, c.toNat ≤ 0xFFFF) := by
  refine ⟨exists_escaped s.toList, fun text htext => ?_⟩
  have hsize : quote.utf8Size = 1 := by
    simp only [List.mem_cons, List.not_mem_nil, or_false] at hquote
    rcases hquote with rfl | rfl <;> rfl
  have hvalue : stringValue (String.ofList (quote :: text ++ [quote])) =
      String.ofList (s.toList.flatMap unpaired) := by
    rw [stringValue_between hsize, htext.unescape_textUnits]
  refine ⟨htext.ascii, htext.read?_eq [], hvalue, ?_⟩
  rw [hvalue, ← flatMap_unpaired_eq_self_iff, ← String.toList_inj, String.toList_ofList]

/-- Digits of either case, for a letter, a pair and a line break. -/
theorem escaped_mixed :
    Escaped (textUnits "é😀\n".toList) "\\u00E9\\ud83d\\uDE00\\u000a".toList :=
  have hbreak : Escaped [0xA] "\\u000a".toList :=
    .unit (show IsNumeral 16 0xA ['0', '0', '0', 'a'] from ⟨3, by decide⟩) rfl .nil
  have hlow : Escaped [0xDE00, 0xA] "\\uDE00\\u000a".toList :=
    .unit (show IsNumeral 16 0xDE00 ['D', 'E', '0', '0'] from ⟨0, by decide⟩) rfl hbreak
  have hpair : Escaped [0xD83D, 0xDE00, 0xA] "\\ud83d\\uDE00\\u000a".toList :=
    .unit (show IsNumeral 16 0xD83D ['d', '8', '3', 'd'] from ⟨0, by decide⟩) rfl hlow
  .unit (show IsNumeral 16 0xE9 ['0', '0', 'E', '9'] from ⟨2, by decide⟩) rfl hpair

theorem escaped_mixed_value :
    Escaped (textUnits "é😀\n".toList) "\\u00E9\\ud83d\\uDE00\\u000a".toList ∧
      stringValue "'\\u00E9\\ud83d\\uDE00\\u000a'" = "é\uFFFD\uFFFD\n" :=
  ⟨escaped_mixed,
    ((stringValue_escaped "é😀\n" (by decide : '\'' ∈ ['"', '\''])).2 _ escaped_mixed).2.2.1⟩

/-- A literal loses a pair of units, but not the same character between braces. -/
theorem escaped_pair_unread :
    Escaped (textUnits "😀".toList) "\\ud83d\\ude00".toList ∧
      stringValue "\"\\ud83d\\ude00\"" = "\uFFFD\uFFFD" ∧
      stringValue "\"\\ud83d\\ude00\"" ≠ "😀" ∧ stringValue "\"\\u\x7b1f600\x7d\"" = "😀" := by
  have hlow : Escaped [0xDE00] "\\ude00".toList :=
    .unit (show IsNumeral 16 0xDE00 ['d', 'e', '0', '0'] from ⟨0, by decide⟩) rfl .nil
  have hpair : Escaped (textUnits "😀".toList) "\\ud83d\\ude00".toList :=
    .unit (show IsNumeral 16 0xD83D ['d', '8', '3', 'd'] from ⟨0, by decide⟩) rfl hlow
  have hvalue : stringValue "\"\\ud83d\\ude00\"" = "\uFFFD\uFFFD" :=
    (stringValue_quoted "\\ud83d\\ude00".toList).trans
      (congrArg String.ofList hpair.unescape_textUnits)
  have hbraced : unescape "\\u\x7b1f600\x7d".toList = "😀".toList :=
    Spelled.unescape_text [⟨'😀', .braced ['1', 'f', '6', '0', '0'] ⟨0, by decide⟩⟩]
  refine ⟨hpair, hvalue, ?_, (stringValue_quoted "\\u\x7b1f600\x7d".toList).trans
    (congrArg String.ofList hbraced)⟩
  rw [hvalue]
  decide

end Stepflow.Literal
