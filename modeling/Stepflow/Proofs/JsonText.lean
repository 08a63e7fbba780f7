import Mathlib
import Stepflow.Json.Reader
import Stepflow.Json.Writer
import Stepflow.Proofs.Digits

/-!
# Written JSON is read

The reader gives back a value that was written, on one line or on many.

* `Value.Fits`: the value has no number but integers of 64 bits, and is not nested too deeply.
* `Number.Stops`: no number goes on here.
* `Reads`: the text of a value is read as the value, whatever follows it.

Results:
* `Quoted.read?_quote`: every text survives the escapes.
* `Number.read?_toString`: integers of 64 bits are read as such.
* `writeOnto_eq_append`: what follows a value does not change its text.
* `readItems_written`, `readMembers_written`: items and members are read one after the other.
* `readText_write`: what was written is read, and nothing is left.
-/

namespace Stepflow.Json

/-! ## Quoted texts -/

/-- What has no letter of its own is written as it is, or with its code if it is a control
    character. -/
theorem escape_of_not_mem {c : Char} (h : c ∉ ['"', '\\', '\x08', '\x0c', '\n', '\r', '\t']) :
    escape c = if c.toNat < 0x20 then
      ['\\', 'u', '0', '0', hexDigit (c.toNat / 16), hexDigit (c.toNat % 16)] else [c] := by
  simp only [List.mem_cons, List.not_mem_nil, or_false, not_or] at h
  simp [escape, h]

namespace Quoted

theorem natOfDigits?_hexDigit {n : Nat} (h : n < 0x20) :
    natOfDigits? 16 ['0', '0', hexDigit (n / 16), hexDigit (n % 16)] = some n := by
  revert n
  decide

/-- A written character gives its code unit. -/
theorem units?_escape (found : List Nat) (c : Char) (cs : List Char) :
    units? found (escape c ++ cs) = units? (c.toNat :: found) cs := by
  by_cases hshort : c ∈ ['"', '\\', '\x08', '\x0c', '\n', '\r', '\t']
  · simp only [List.mem_cons, List.not_mem_nil, or_false] at hshort
    rcases hshort with rfl | rfl | rfl | rfl | rfl | rfl | rfl <;> rfl
  · rw [escape_of_not_mem hshort]
    split
    · next h =>
      change units? found ('\\' :: 'u' :: '0' :: '0' :: _ :: _ :: cs) = _
      rw [units?, natOfDigits?_hexDigit h]
    · next h =>
      have hquote : c ≠ '"' := fun h => hshort (by simp [h])
      have hback : c ≠ '\\' := fun h => hshort (by simp [h])
      change units? found (c :: cs) = _
      rw [units?, if_neg (not_or.mpr ⟨h, hback⟩)]
      · exact hquote
      · intro _ _ _ _ _ hc
        exact absurd hc hback
      · intro _ _ hc
        exact absurd hc hback

theorem units?_quoted (found : List Nat) (cs rest : List Char) :
    units? found (cs.flatMap escape ++ '"' :: rest) =
      some ((cs.map Char.toNat).reverse ++ found, rest) := by
  induction cs generalizing found with
  | nil => rfl
  | cons c cs ih =>
    rw [List.flatMap_cons, List.append_assoc, units?_escape, ih]
    simp

theorem isLow_toNat (c : Char) : isLow c.toNat = false := by
  have hvalid : c.toNat < 0xD800 ∨ 0xDFFF < c.toNat ∧ c.toNat < 0x110000 := c.valid
  rw [isLow, Bool.and_eq_false_iff, decide_eq_false_iff_not, decide_eq_false_iff_not]
  omega

/-- A unit that is a character on its own is taken as such. -/
theorem characters?_cons_toNat (found : List Char) (c : Char) (units : List Nat) :
    characters? found (c.toNat :: units) = characters? (c :: found) units := by
  have hvalid : c.toNat.isValidChar := c.valid
  cases units with
  | nil =>
    change (if h : c.toNat.isValidChar then some (Char.ofNatAux c.toNat h :: found) else none) = _
    rw [dif_pos hvalid]
    rfl
  | cons unit units =>
    rw [characters?, isLow_toNat, Bool.false_and, if_neg Bool.false_ne_true, dif_pos hvalid]
    rfl

theorem characters?_toNat (found cs : List Char) :
    characters? found (cs.map Char.toNat) = some (cs.reverse ++ found) := by
  induction cs generalizing found with
  | nil => rfl
  | cons c cs ih =>
    rw [List.map_cons, characters?_cons_toNat, ih]
    simp

/-- Every text survives the escapes. -/
theorem read?_quote (s : String) (rest : List Char) :
    read? (s.toList.flatMap escape ++ '"' :: rest) = some (some s, rest) := by
  rw [read?, units?_quoted, List.append_nil, Option.map_some, ← List.map_reverse]
  dsimp only
  rw [characters?_toNat, List.reverse_reverse, List.append_nil, Option.map_some,
    String.ofList_toList]

end Quoted

/-! ## Numbers -/

namespace Number

/-- No number goes on here. -/
def Stops (rest : List Char) : Prop :=
  ∀ c ∈ rest.head?, ¬ c.isDigit ∧ c ≠ '.' ∧ c ≠ 'e' ∧ c ≠ 'E'

theorem stops_cons {c : Char} (hdigit : c.isDigit = false) (hletter : c ∉ ['.', 'e', 'E'])
    (rest : List Char) : Stops (c :: rest) := by
  intro d hd
  cases hd
  simp only [List.mem_cons, List.not_mem_nil, or_false, not_or] at hletter
  exact ⟨by simp [hdigit], hletter⟩

variable {rest : List Char}

theorem fraction?_of_stops (h : Stops rest) : fraction? rest = some ([], rest) := by
  cases rest with
  | nil => rfl
  | cons c cs =>
    rw [fraction?]
    rintro cs' heq
    exact (h c rfl).2.1 (List.cons.inj heq).1

theorem exponent?_of_stops (h : Stops rest) : exponent? rest = some (none, rest) := by
  cases rest with
  | nil => rfl
  | cons c cs =>
    obtain ⟨-, -, he, hE⟩ := h c rfl
    rw [exponent?]
    exact if_neg (not_or.mpr ⟨he, hE⟩)

/-- How a sign and digits are understood. -/
theorem spelling?_digits (negative : Bool) (n : Nat) (h : Stops rest) :
    spelling? (Double.signText negative ++ Nat.toDigits 10 n ++ rest) =
      some ({ negative := negative, whole := Nat.toDigits 10 n, fraction := [], exponent := none },
        rest) := by
  have hdigits : digits? (Nat.toDigits 10 n ++ rest) = some (Nat.toDigits 10 n, rest) := by
    have hall : ∀ c ∈ Nat.toDigits 10 n, c.isDigit := fun c hc => isDigit_toDigits hc
    have hstop : ∀ c ∈ rest.head?, ¬ c.isDigit := fun c hc => (h c hc).1
    rw [digits?, takeWhile_digits hall hstop, dropWhile_digits hall hstop,
      if_neg (by simp [Nat.toDigits_ne_nil])]
  have hzero : ¬ ((Nat.toDigits 10 n).head? = some '0' ∧ (Nat.toDigits 10 n).length ≠ 1) := by
    rintro ⟨hhead, hlength⟩
    by_cases hn : n = 0
    · rw [hn] at hlength
      exact hlength rfl
    · exact head?_toDigits_ne_zero hn hhead
  cases negative with
  | true =>
    change spelling? ('-' :: (Nat.toDigits 10 n ++ rest)) = _
    rw [spelling?, hdigits, Option.bind_eq_bind, Option.bind_some]
    dsimp only
    rw [if_neg hzero, fraction?_of_stops h, Option.bind_eq_bind, Option.bind_some,
      exponent?_of_stops h]
    rfl
  | false =>
    change spelling? (Nat.toDigits 10 n ++ rest) = _
    rw [spelling?, hdigits, Option.bind_eq_bind, Option.bind_some]
    · dsimp only
      rw [if_neg hzero, fraction?_of_stops h, Option.bind_eq_bind, Option.bind_some,
        exponent?_of_stops h]
      rfl
    · intro cs heq
      obtain ⟨c, cs', hcs, hc⟩ := toDigits_cons n
      rw [hcs, List.cons_append] at heq
      cases (List.cons.inj heq).1
      cases hc

/-- Integers of 64 bits are read as such. -/
theorem read?_toString {n : Int} (hlow : -2 ^ 63 ≤ n) (hhigh : n < 2 ^ 64) (h : Stops rest) :
    read? ((toString n).toList ++ rest) = some (.int n, rest) := by
  rw [toList_toString_int, read?, spelling?_digits _ _ h, Option.map_some]
  dsimp only
  rw [Spelling.value]
  dsimp only
  rw [natOfDecimal_toDigits]
  by_cases hn : n < 0
  · have hle : 0 < n.natAbs ∧ n.natAbs ≤ 9223372036854775808 := by omega
    have hneg : -(n.natAbs : Int) = n := by omega
    rw [if_neg (by simp [hn]), if_pos (by simpa [hn] using hle), hneg]
  · have hlt : n.natAbs < 18446744073709551616 := by omega
    have hpos : (n.natAbs : Int) = n := by omega
    rw [if_pos (by simp [hn, wordCount, hlt]), hpos]

end Number

/-! ## Blanks -/

theorem skipSpace_cons {c : Char} (h : isSpace c = false) (cs : List Char) :
    skipSpace (c :: cs) = c :: cs := by
  rw [skipSpace, List.dropWhile_cons_of_neg (by simp [h])]

theorem skipSpace_append {blanks : List Char} (h : ∀ c ∈ blanks, isSpace c) (cs : List Char) :
    skipSpace (blanks ++ cs) = skipSpace cs :=
  List.dropWhile_append_of_pos h

theorem skipSpace_skipSpace (cs : List Char) : skipSpace (skipSpace cs) = skipSpace cs := by
  rw [skipSpace, skipSpace, List.dropWhile_idempotent]

theorem isSpace_newline {pretty : Bool} {depth : Nat} {c : Char} (h : c ∈ newline pretty depth) :
    isSpace c := by
  cases pretty with
  | false => cases h
  | true =>
    rcases List.mem_cons.mp h with rfl | h
    · rfl
    · rw [List.eq_of_mem_replicate h]
      rfl

theorem skipSpace_newline (pretty : Bool) (depth : Nat) (cs : List Char) :
    skipSpace (newline pretty depth ++ cs) = skipSpace cs :=
  skipSpace_append (fun _ hc => isSpace_newline hc) cs

theorem readValue_skipSpace (fuel depth : Nat) (cs : List Char) :
    readValue fuel depth (skipSpace cs) = readValue fuel depth cs := by
  cases fuel with
  | zero => rw [readValue, readValue]
  | succ fuel => rw [readValue, readValue, skipSpace_skipSpace]

theorem readItems_skipSpace (fuel depth : Nat) (found : List Value) (cs : List Char) :
    readItems fuel depth found (skipSpace cs) = readItems fuel depth found cs := by
  cases fuel with
  | zero => rw [readItems, readItems]
  | succ fuel => rw [readItems, readItems, readValue_skipSpace]

theorem readMembers_skipSpace (fuel depth : Nat) (found : List (String × Value))
    (cs : List Char) :
    readMembers fuel depth found (skipSpace cs) = readMembers fuel depth found cs := by
  cases fuel with
  | zero => rw [readMembers, readMembers]
  | succ fuel => rw [readMembers, readMembers, skipSpace_skipSpace]

/-! ## Texts of values -/

namespace Value

mutual

/-- The value consists of texts, integers of 64 bits and the three words, in containers that are
    nested at most `room` deep. -/
def Fits (room : Nat) : Value → Prop
  | null | bool _ | string _ => True
  | int n => -2 ^ 63 ≤ n ∧ n < 2 ^ 64
  | array items => 0 < room ∧ AllFit (room - 1) items
  | object members => 0 < room ∧ MembersFit (room - 1) members
  | float _ | variant .. | unfit | stray | broken => False

/-- All items are such values. -/
def AllFit (room : Nat) : List Value → Prop
  | [] => True
  | v :: vs => v.Fits room ∧ AllFit room vs

/-- The values of all members are such values. -/
def MembersFit (room : Nat) : List (String × Value) → Prop
  | [] => True
  | (_, v) :: members => v.Fits room ∧ MembersFit room members

end

theorem allFit_iff {room : Nat} {vs : List Value} : AllFit room vs ↔ ∀ v ∈ vs, v.Fits room := by
  induction vs with
  | nil => simp [AllFit]
  | cons v vs ih => simp [AllFit, ih]

theorem membersFit_iff {room : Nat} {ms : List (String × Value)} :
    MembersFit room ms ↔ ∀ m ∈ ms, m.2.Fits room := by
  induction ms with
  | nil => simp [MembersFit]
  | cons m ms ih => simp [MembersFit, ih]

end Value

mutual

/-- What follows a value does not change its text. -/
theorem writeOnto_eq_append (pretty : Bool) : ∀ (v : Value) (depth : Nat) (rest : List Char),
    writeOnto pretty depth rest v = writeOnto pretty depth [] v ++ rest
  | .null, _, _ | .unfit, _, _ | .stray, _, _ | .broken, _, _ | .bool _, _, _ | .int _, _, _
  | .float _, _, _ | .string _, _, _ => by rw [writeOnto, writeOnto, List.append_nil]
  | .array [], _, _ | .object [], _, _ => by rw [writeOnto, writeOnto]; rfl
  | .array (v :: vs), depth, rest => by
    rw [writeOnto, writeOnto, writeOnto_eq_append pretty v, writeItems_eq_append pretty vs,
      writeOnto_eq_append pretty v _ (writeItems ..),
      writeItems_eq_append pretty vs _ (newline pretty depth ++ [']'])]
    simp
  | .object ((k, v) :: ms), depth, rest => by
    rw [writeOnto, writeOnto, writeOnto_eq_append pretty v, writeMembers_eq_append pretty ms,
      writeOnto_eq_append pretty v _ (writeMembers ..),
      writeMembers_eq_append pretty ms _ (newline pretty depth ++ ['}'])]
    simp
  | .variant tag v, depth, rest => by
    rw [writeOnto, writeOnto, writeOnto_eq_append pretty v,
      writeOnto_eq_append pretty v _ (newline pretty depth ++ ['}'])]
    simp

theorem writeItems_eq_append (pretty : Bool) : ∀ (vs : List Value) (depth : Nat) (rest : List Char),
    writeItems pretty depth rest vs = writeItems pretty depth [] vs ++ rest
  | [], _, _ => by rw [writeItems, writeItems, List.nil_append]
  | v :: vs, depth, rest => by
    rw [writeItems, writeItems, writeOnto_eq_append pretty v, writeItems_eq_append pretty vs,
      writeOnto_eq_append pretty v _ (writeItems pretty depth [] vs)]
    simp

theorem writeMembers_eq_append (pretty : Bool) :
    ∀ (ms : List (String × Value)) (depth : Nat) (rest : List Char),
      writeMembers pretty depth rest ms = writeMembers pretty depth [] ms ++ rest
  | [], _, _ => by rw [writeMembers, writeMembers, List.nil_append]
  | (k, v) :: ms, depth, rest => by
    rw [writeMembers, writeMembers, writeOnto_eq_append pretty v, writeMembers_eq_append pretty ms,
      writeOnto_eq_append pretty v _ (writeMembers pretty depth [] ms)]
    simp

end

theorem length_le_writeOnto (pretty : Bool) (depth : Nat) (rest : List Char) (v : Value) :
    rest.length ≤ (writeOnto pretty depth rest v).length := by
  rw [writeOnto_eq_append, List.length_append]
  omega

/-! ## Steps of the reader -/

section Steps

variable {fuel depth : Nat} {cs rest rest' : List Char} {v : Value} {s : String}

theorem readValue_quote (h : Quoted.read? cs = some (some s, rest)) :
    readValue (fuel + 1) depth ('"' :: cs) = .read (.string s) rest := by
  rw [readValue, skipSpace_cons rfl]
  simp only [h]

/-- A container is whole if it is not nested too deeply. -/
theorem Part.atDepth_of_lt (hdepth : depth < maxDepth) (p : Part) :
    Part.atDepth (maxDepth ≤ depth) p = p := by
  rw [Part.atDepth, decide_eq_false (Nat.not_le.mpr hdepth), Bool.false_and,
    if_neg Bool.false_ne_true]

theorem readValue_array_nil (hdepth : depth < maxDepth) :
    readValue (fuel + 1) depth ('[' :: ']' :: rest) = .read (.array []) rest := by
  rw [readValue, skipSpace_cons rfl]
  simp only [skipSpace_cons (show isSpace ']' = false from rfl), Part.atDepth_of_lt hdepth]

theorem readValue_array {c : Char} (hdepth : depth < maxDepth) (hc : c ≠ ']')
    (h : skipSpace cs = c :: rest') (hitems : readItems fuel (depth + 1) [] (c :: rest') =
      .read v rest) :
    readValue (fuel + 1) depth ('[' :: cs) = .read v rest := by
  rw [readValue, skipSpace_cons rfl]
  simp only [h, Part.atDepth_of_lt hdepth]
  split
  · next heq => exact absurd (List.cons.inj heq).1 hc
  · exact hitems

theorem readItems_comma {found : List Value} (hv : readValue fuel depth cs = .read v rest)
    (h : skipSpace rest = ',' :: rest') :
    readItems (fuel + 1) depth found cs = readItems fuel depth (v :: found) rest' := by
  rw [readItems, hv]
  simp only [Part.read, h]

theorem readItems_end {found : List Value} (hv : readValue fuel depth cs = .read v rest)
    (h : skipSpace rest = ']' :: rest') :
    readItems (fuel + 1) depth found cs = .read (.array (v :: found).reverse) rest' := by
  rw [readItems, hv]
  simp only [Part.read, h]

theorem readValue_object_nil (hdepth : depth < maxDepth) :
    readValue (fuel + 1) depth ('{' :: '}' :: rest) = .read (.object []) rest := by
  rw [readValue, skipSpace_cons rfl]
  simp only [skipSpace_cons (show isSpace '}' = false from rfl), Part.atDepth_of_lt hdepth]

theorem readValue_object (hdepth : depth < maxDepth) (h : skipSpace cs = '"' :: rest')
    (hmembers : readMembers fuel (depth + 1) [] ('"' :: rest') = .read v rest) :
    readValue (fuel + 1) depth ('{' :: cs) = .read v rest := by
  rw [readValue, skipSpace_cons rfl]
  simp only [h, Part.atDepth_of_lt hdepth]
  exact hmembers

variable {key : String} {cs' : List Char} {members : List (String × Value)}

theorem readMembers_comma (hkey : Quoted.read? cs = some (some key, ':' :: cs'))
    (hv : readValue fuel depth cs' = .read v rest) (h : skipSpace rest = ',' :: rest') :
    readMembers (fuel + 1) depth members ('"' :: cs) =
      readMembers fuel depth ((key, v) :: members) rest' := by
  rw [readMembers, skipSpace_cons rfl]
  simp only [hkey, skipSpace_cons (show isSpace ':' = false from rfl), hv, Part.read, h]

theorem readMembers_end (hkey : Quoted.read? cs = some (some key, ':' :: cs'))
    (hv : readValue fuel depth cs' = .read v rest) (h : skipSpace rest = '}' :: rest') :
    readMembers (fuel + 1) depth members ('"' :: cs) =
      .read (.object ((key, v) :: members).reverse) rest' := by
  rw [readMembers, skipSpace_cons rfl]
  simp only [hkey, skipSpace_cons (show isSpace ':' = false from rfl), hv, Part.read, h]

end Steps

/-! ## Values -/

/-- The text of a value is read as the value, in a place with room for its containers. It begins
    neither with a blank nor with the end of an array. -/
structure Reads (pretty : Bool) (room : Nat) (v : Value) : Prop where
  begins : ∀ indent rest, ∃ c cs, writeOnto pretty indent rest v = c :: cs ∧ isSpace c = false ∧
    c ≠ ']'
  reads : ∀ depth indent fuel rest, depth + room ≤ maxDepth → Number.Stops rest →
    2 * (writeOnto pretty indent rest v).length ≤ fuel →
    readValue fuel depth (writeOnto pretty indent rest v) = .read v rest

section Reads

variable {pretty : Bool} {room : Nat}

theorem Reads.skipSpace_eq {v : Value} (h : Reads pretty room v) (indent : Nat)
    (rest : List Char) :
    skipSpace (writeOnto pretty indent rest v) = writeOnto pretty indent rest v := by
  obtain ⟨c, cs, hcs, hspace, -⟩ := h.begins indent rest
  rw [hcs, skipSpace_cons hspace]

/-- A key and a value behind it are read, whether or not there is a blank between them. -/
theorem Reads.member {v : Value} (h : Reads pretty room v) (key : String)
    (depth indent fuel : Nat) (rest : List Char) (hdepth : depth + room ≤ maxDepth)
    (hstops : Number.Stops rest) (hfuel : 2 * (writeOnto pretty indent rest v).length ≤ fuel) :
    ∃ cs cs', writeKey pretty key ++ writeOnto pretty indent rest v = '"' :: cs ∧
      Quoted.read? cs = some (some key, ':' :: cs') ∧ readValue fuel depth cs' = .read v rest := by
  have hread := h.reads depth indent fuel rest hdepth hstops hfuel
  refine ⟨_, (if pretty then [' '] else []) ++ writeOnto pretty indent rest v,
    by simp [writeKey, quote], Quoted.read?_quote .., ?_⟩
  rw [← readValue_skipSpace, skipSpace_append, readValue_skipSpace, hread]
  cases pretty <;> simp [isSpace]

/-- No number goes on behind a value of a container. -/
theorem stops_newline {c : Char} (hdigit : c.isDigit = false) (hletter : c ∉ ['.', 'e', 'E'])
    (pretty : Bool) (depth : Nat) (rest : List Char) :
    Number.Stops (newline pretty depth ++ c :: rest) := by
  cases pretty with
  | false => exact Number.stops_cons hdigit hletter rest
  | true => exact Number.stops_cons rfl (by decide) _

/-- A value that holds no other ones takes one step. -/
theorem Reads.of_step {v : Value}
    (begins : ∀ indent rest, ∃ c cs, writeOnto pretty indent rest v = c :: cs ∧
      isSpace c = false ∧ c ≠ ']')
    (step : ∀ depth indent fuel rest, Number.Stops rest →
      readValue (fuel + 1) depth (writeOnto pretty indent rest v) = .read v rest) :
    Reads pretty room v where
  begins := begins
  reads := by
    intro depth indent fuel rest _ hstops hfuel
    obtain ⟨c, cs, hcs, -⟩ := begins indent rest
    rw [hcs, List.length_cons] at hfuel
    obtain ⟨fuel, rfl⟩ : ∃ f, fuel = f + 1 := ⟨fuel - 1, by omega⟩
    exact step depth indent fuel rest hstops

theorem reads_null : Reads pretty room .null := by
  refine .of_step (fun _ _ => ⟨'n', _, rfl, rfl, by decide⟩) fun _ _ _ _ _ => ?_
  rw [writeOnto, readValue]
  rfl

theorem reads_bool (b : Bool) : Reads pretty room (.bool b) := by
  cases b with
  | true =>
    refine .of_step (fun _ _ => ⟨'t', _, rfl, rfl, by decide⟩) fun _ _ _ _ _ => ?_
    rw [writeOnto, readValue]
    rfl
  | false =>
    refine .of_step (fun _ _ => ⟨'f', _, rfl, rfl, by decide⟩) fun _ _ _ _ _ => ?_
    rw [writeOnto, readValue]
    rfl

theorem reads_string (s : String) : Reads pretty room (.string s) := by
  refine .of_step (fun _ _ => ⟨'"', _, rfl, rfl, by decide⟩) fun _ _ _ rest _ => ?_
  have hquote : quote s ++ rest = '"' :: (s.toList.flatMap escape ++ '"' :: rest) := by
    simp [quote]
  rw [writeOnto, hquote]
  exact readValue_quote (Quoted.read?_quote s rest)

theorem ne_of_isDigit_or {c d : Char} (hc : c.isDigit ∨ c = '-') (hd : d.isDigit = false)
    (hminus : d ≠ '-') : c ≠ d := by
  rintro rfl
  rcases hc with hc | hc
  · cases hd.symm.trans hc
  · exact hminus hc

theorem isSpace_of_isDigit_or {c : Char} (hc : c.isDigit ∨ c = '-') : isSpace c = false := by
  have hne : ∀ d : Char, d.isDigit = false → d ≠ '-' → c ≠ d := fun d => ne_of_isDigit_or hc
  simp [isSpace, hne ' ' rfl (by decide), hne '\n' rfl (by decide), hne '\t' rfl (by decide),
    hne '\r' rfl (by decide)]

theorem readValue_number {fuel depth : Nat} {c : Char} {cs rest : List Char} {v : Value}
    (hc : c.isDigit ∨ c = '-') (h : Number.read? (c :: cs) = some (v, rest)) :
    readValue (fuel + 1) depth (c :: cs) = .read v rest := by
  rw [readValue, skipSpace_cons (isSpace_of_isDigit_or hc)]
  split
  case h_7 => rw [h]
  all_goals
    next heq => exact absurd (List.cons.inj heq).1 (ne_of_isDigit_or hc rfl (by decide))

theorem reads_int {n : Int} (hlow : -2 ^ 63 ≤ n) (hhigh : n < 2 ^ 64) :
    Reads pretty room (.int n) := by
  have hbegins : ∃ c cs, (toString n).toList = c :: cs ∧ (c.isDigit ∨ c = '-') := by
    rw [toList_toString_int]
    by_cases hn : n < 0
    · exact ⟨'-', _, by rw [decide_eq_true hn]; rfl, .inr rfl⟩
    · obtain ⟨c, cs, hcs, hc⟩ := toDigits_cons n.natAbs
      exact ⟨c, cs, by rw [decide_eq_false hn, hcs]; rfl, .inl hc⟩
  obtain ⟨c, cs, hcs, hc⟩ := hbegins
  refine .of_step (fun _ rest => ⟨c, cs ++ rest, ?_, isSpace_of_isDigit_or hc,
    ne_of_isDigit_or hc rfl (by decide)⟩) fun _ _ _ rest hstops => ?_
  · rw [writeOnto, hcs, List.cons_append]
  · have hread := Number.read?_toString hlow hhigh hstops
    rw [writeOnto]
    rw [hcs, List.cons_append] at hread ⊢
    exact readValue_number hc hread

/-! ## Containers -/

/-- Items are read one after the other. -/
theorem readItems_written {v : Value} {vs : List Value} (h : ∀ w ∈ v :: vs, Reads pretty room w)
    (depth indent outer fuel : Nat) (found : List Value) (rest : List Char)
    (hdepth : depth + room ≤ maxDepth)
    (hfuel : 2 * (writeOnto pretty indent (writeItems pretty indent
      (newline pretty outer ++ ']' :: rest) vs) v).length + 1 ≤ fuel) :
    readItems fuel depth found (writeOnto pretty indent (writeItems pretty indent
      (newline pretty outer ++ ']' :: rest) vs) v) =
        .read (.array (found.reverse ++ v :: vs)) rest := by
  induction vs generalizing v found fuel with
  | nil =>
    obtain ⟨fuel, rfl⟩ : ∃ f, fuel = f + 1 := ⟨fuel - 1, by omega⟩
    have hv := (h v List.mem_cons_self).reads depth indent fuel _ hdepth
      (stops_newline rfl (by decide) pretty outer rest) (Nat.le_of_succ_le_succ hfuel)
    rw [writeItems, readItems_end hv ((skipSpace_newline ..).trans (skipSpace_cons rfl rest))]
    simp
  | cons w vs ih =>
    obtain ⟨fuel, rfl⟩ : ∃ f, fuel = f + 1 := ⟨fuel - 1, by omega⟩
    have hw := h w (List.mem_cons_of_mem _ List.mem_cons_self)
    have hlen := length_le_writeOnto pretty indent (writeItems pretty indent
      (newline pretty outer ++ ']' :: rest) (w :: vs)) v
    rw [writeItems, List.cons_append] at hfuel hlen ⊢
    have hv := (h v List.mem_cons_self).reads depth indent fuel _ hdepth
      (Number.stops_cons rfl (by decide) _) (Nat.le_of_succ_le_succ hfuel)
    rw [readItems_comma hv (skipSpace_cons rfl _), ← readItems_skipSpace, skipSpace_newline,
      hw.skipSpace_eq, ih (fun u hu => h u (List.mem_cons_of_mem _ hu)) fuel (v :: found)]
    · simp
    · rw [List.length_cons, List.length_append] at hlen
      omega

theorem reads_array {vs : List Value} (h : ∀ w ∈ vs, Reads pretty room w) :
    Reads pretty (room + 1) (.array vs) where
  begins := by
    intro indent rest
    cases vs with
    | nil => exact ⟨'[', _, by rw [writeOnto], rfl, by decide⟩
    | cons v vs => exact ⟨'[', _, by rw [writeOnto]; rfl, rfl, by decide⟩
  reads := by
    intro depth indent fuel rest hdepth _ hfuel
    cases vs with
    | nil =>
      rw [writeOnto] at hfuel ⊢
      obtain ⟨fuel, rfl⟩ : ∃ f, fuel = f + 1 := ⟨fuel - 1, by simp at hfuel; omega⟩
      exact readValue_array_nil (by omega)
    | cons v vs =>
      have hv := h v List.mem_cons_self
      rw [writeOnto, List.cons_append] at hfuel ⊢
      rw [List.length_cons, List.length_append] at hfuel
      obtain ⟨fuel, rfl⟩ : ∃ f, fuel = f + 1 := ⟨fuel - 1, by omega⟩
      have hitems := readItems_written h (depth + 1) (indent + 1) indent fuel [] rest (by omega)
        (by omega)
      obtain ⟨c, cs, hcs, -, hc⟩ := hv.begins (indent + 1)
        (writeItems pretty (indent + 1) (newline pretty indent ++ ']' :: rest) vs)
      rw [hcs] at hitems
      refine readValue_array (by omega) hc ?_ hitems
      rw [skipSpace_newline, hv.skipSpace_eq, hcs]

/-- Members are read one after the other. -/
theorem readMembers_written {key : String} {v : Value} {ms : List (String × Value)}
    (h : ∀ m ∈ (key, v) :: ms, Reads pretty room m.2) (depth indent outer fuel : Nat)
    (found : List (String × Value)) (rest : List Char) (hdepth : depth + room ≤ maxDepth)
    (hfuel : 2 * (writeKey pretty key ++ writeOnto pretty indent (writeMembers pretty indent
      (newline pretty outer ++ '}' :: rest) ms) v).length + 1 ≤ fuel) :
    readMembers fuel depth found (writeKey pretty key ++ writeOnto pretty indent
      (writeMembers pretty indent (newline pretty outer ++ '}' :: rest) ms) v) =
        .read (.object (found.reverse ++ (key, v) :: ms)) rest := by
  have hread : Reads pretty room v := h (key, v) List.mem_cons_self
  induction ms generalizing key v found fuel with
  | nil =>
    obtain ⟨fuel, rfl⟩ : ∃ f, fuel = f + 1 := ⟨fuel - 1, by omega⟩
    rw [List.length_append, writeMembers] at hfuel
    rw [writeMembers]
    obtain ⟨cs, cs', htext, hkey, hv⟩ := hread.member key depth indent fuel
      (newline pretty outer ++ '}' :: rest) hdepth
      (stops_newline rfl (by decide) pretty outer rest) (by omega)
    rw [htext, readMembers_end hkey hv ((skipSpace_newline ..).trans (skipSpace_cons rfl rest))]
    simp
  | cons m ms ih =>
    obtain ⟨fuel, rfl⟩ : ∃ f, fuel = f + 1 := ⟨fuel - 1, by omega⟩
    obtain ⟨key', w⟩ := m
    have hlen := length_le_writeOnto pretty indent (writeMembers pretty indent
      (newline pretty outer ++ '}' :: rest) ((key', w) :: ms)) v
    rw [List.length_append] at hfuel
    rw [writeMembers, List.cons_append, List.cons_append, List.append_assoc] at hfuel hlen ⊢
    obtain ⟨cs, cs', htext, hkey, hv⟩ := hread.member key depth indent fuel
      (',' :: (newline pretty indent ++ (writeKey pretty key' ++ writeOnto pretty indent
        (writeMembers pretty indent (newline pretty outer ++ '}' :: rest) ms) w))) hdepth
      (Number.stops_cons rfl (by decide) _) (by omega)
    rw [htext, readMembers_comma hkey hv (skipSpace_cons rfl _), ← readMembers_skipSpace,
      skipSpace_newline, readMembers_skipSpace,
      ih (fun u hu => h u (List.mem_cons_of_mem _ hu)) fuel ((key, v) :: found) ?_
        (h (key', w) (List.mem_cons_of_mem _ List.mem_cons_self))]
    · simp
    · rw [List.length_cons, List.length_append] at hlen
      omega

theorem reads_object {ms : List (String × Value)} (h : ∀ m ∈ ms, Reads pretty room m.2) :
    Reads pretty (room + 1) (.object ms) where
  begins := by
    intro indent rest
    cases ms with
    | nil => exact ⟨'{', _, by rw [writeOnto], rfl, by decide⟩
    | cons m ms => exact ⟨'{', _, by rw [writeOnto]; rfl, rfl, by decide⟩
  reads := by
    intro depth indent fuel rest hdepth _ hfuel
    cases ms with
    | nil =>
      rw [writeOnto] at hfuel ⊢
      obtain ⟨fuel, rfl⟩ : ∃ f, fuel = f + 1 := ⟨fuel - 1, by simp at hfuel; omega⟩
      exact readValue_object_nil (by omega)
    | cons m ms =>
      obtain ⟨key, v⟩ := m
      rw [writeOnto, List.cons_append, List.cons_append] at hfuel ⊢
      rw [List.length_cons, List.append_assoc, List.length_append] at hfuel
      obtain ⟨fuel, rfl⟩ : ∃ f, fuel = f + 1 := ⟨fuel - 1, by omega⟩
      have hmembers := readMembers_written h (depth + 1) (indent + 1) indent fuel [] rest
        (by omega) (by omega)
      refine readValue_object (by omega) ?_ hmembers
      rw [List.append_assoc, skipSpace_newline]
      exact skipSpace_cons rfl _

mutual

/-- Every value that fits is read. -/
theorem reads_of_fits : ∀ (v : Value) (room : Nat), v.Fits room → Reads pretty room v
  | .null, _, _ => reads_null
  | .bool b, _, _ => reads_bool b
  | .string s, _, _ => reads_string s
  | .int n, _, h => by
    rw [Value.Fits] at h
    exact reads_int h.1 h.2
  | .array vs, room, h => by
    rw [Value.Fits] at h
    rw [← Nat.sub_add_cancel h.1]
    exact reads_array (reads_of_allFit vs _ h.2)
  | .object ms, room, h => by
    rw [Value.Fits] at h
    rw [← Nat.sub_add_cancel h.1]
    exact reads_object (reads_of_membersFit ms _ h.2)

theorem reads_of_allFit : ∀ (vs : List Value) (room : Nat), Value.AllFit room vs →
    ∀ w ∈ vs, Reads pretty room w
  | [], _, _, _, hw => by cases hw
  | v :: vs, room, h, w, hw => by
    rw [Value.AllFit] at h
    rcases List.mem_cons.mp hw with heq | hw
    · rw [heq]
      exact reads_of_fits v room h.1
    · exact reads_of_allFit vs room h.2 w hw

theorem reads_of_membersFit : ∀ (ms : List (String × Value)) (room : Nat),
    Value.MembersFit room ms → ∀ m ∈ ms, Reads pretty room m.2
  | [], _, _, _, hm => by cases hm
  | (key, v) :: ms, room, h, m, hm => by
    rw [Value.MembersFit] at h
    rcases List.mem_cons.mp hm with heq | hm
    · rw [heq]
      exact reads_of_fits v room h.1
    · exact reads_of_membersFit ms room h.2 m hm

end

end Reads

/-- What was written is read, and nothing is left. -/
theorem readText_write {v : Value} (h : v.Fits maxDepth) (pretty : Bool) :
    readText (write pretty v) = (v, true) := by
  have hreads : Reads pretty maxDepth v := reads_of_fits v maxDepth h
  have hread := hreads.reads 0 0 (2 * (writeOnto pretty 0 [] v).length + 2) [] (by omega) nofun
    (by omega)
  rw [readText, write, String.toList_ofList, hread]
  rfl

end Stepflow.Json
