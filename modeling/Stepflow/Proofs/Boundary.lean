import Mathlib.Data.List.Infix
import Stepflow.Text.Bytes

/-!
# Boundaries between characters

A text can be cut at a byte offset only between two characters. Where both ends of a range are such
offsets, the range is a part of the text.

* `IsBoundary`: an offset between two characters, or at an end of the text.

Results:
* `isSome_takeBytes?_iff`: a text can be cut exactly at its boundaries.
* `slice?_append`: the characters of a range are the part of the text between its ends.
* `slice?_append_of_le`: a longer text has the same characters in a range of the shorter one.
* `IsBoundary.exists_split`: two boundaries cut a text into three parts.
-/

namespace Stepflow.Text

@[simp] theorem byteLength_nil : byteLength [] = 0 := rfl

@[simp] theorem byteLength_cons (c : Char) (cs : List Char) :
    byteLength (c :: cs) = c.utf8Size + byteLength cs :=
  rfl

@[simp] theorem byteLength_append (cs ds : List Char) :
    byteLength (cs ++ ds) = byteLength cs + byteLength ds := by
  induction cs with
  | nil => simp
  | cons c cs ih => simp [ih, Nat.add_assoc]

theorem eq_nil_of_byteLength_eq_zero {cs : List Char} (h : byteLength cs = 0) : cs = [] := by
  cases cs with
  | nil => rfl
  | cons c cs =>
    have hpos := c.utf8Size_pos
    rw [byteLength_cons] at h
    omega

/-! ## Cuts -/

theorem takeBytes?_cons {c : Char} {cs : List Char} {n : Nat} (h : c.utf8Size ≤ n) :
    takeBytes? (c :: cs) n = (takeBytes? cs (n - c.utf8Size)).map (c :: ·) := by
  have hpos := c.utf8Size_pos
  obtain ⟨n, rfl⟩ : ∃ m, n = m + 1 := ⟨n - 1, by omega⟩
  rw [takeBytes?, if_pos h]

theorem dropBytes?_cons {c : Char} {cs : List Char} {n : Nat} (h : c.utf8Size ≤ n) :
    dropBytes? (c :: cs) n = dropBytes? cs (n - c.utf8Size) := by
  have hpos := c.utf8Size_pos
  obtain ⟨n, rfl⟩ : ∃ m, n = m + 1 := ⟨n - 1, by omega⟩
  rw [dropBytes?, if_pos h]

/-- The bytes of the first part of a text are that part. -/
theorem takeBytes?_append (before after : List Char) :
    takeBytes? (before ++ after) (byteLength before) = some before := by
  induction before with
  | nil => rw [byteLength, List.foldr_nil, takeBytes?]
  | cons c cs ih =>
    rw [List.cons_append, byteLength_cons, takeBytes?_cons (Nat.le_add_right _ _),
      Nat.add_sub_cancel_left, ih, Option.map_some]

/-- What is left without the bytes of the first part of a text is the rest. -/
theorem dropBytes?_append (before after : List Char) :
    dropBytes? (before ++ after) (byteLength before) = some after := by
  induction before with
  | nil => rw [List.nil_append, byteLength_nil, dropBytes?]
  | cons c cs ih =>
    rw [List.cons_append, byteLength_cons, dropBytes?_cons (Nat.le_add_right _ _),
      Nat.add_sub_cancel_left, ih]

/-- The characters of a range are the part of the text between its ends. -/
theorem slice?_append (before middle after : List Char) :
    slice? (before ++ middle ++ after) (byteLength before) (byteLength (before ++ middle)) =
      some middle := by
  rw [slice?, byteLength_append, if_pos (Nat.le_add_right _ _), List.append_assoc,
    dropBytes?_append, Option.bind_some, Nat.add_sub_cancel_left, takeBytes?_append]

theorem slice_append (before middle after : List Char) :
    slice (before ++ middle ++ after) (byteLength before) (byteLength (before ++ middle)) =
      middle := by
  rw [slice, slice?_append, Option.getD_some]

/-- There is nothing in front of the first byte. -/
theorem slice_zero (cs : List Char) (start : Nat) : slice cs start 0 = [] := by
  cases start with
  | zero =>
    rw [slice, slice?, if_pos (Nat.le_refl 0), dropBytes?, Option.bind_some, takeBytes?]
    rfl
  | succ start => rw [slice, slice?, if_neg (Nat.not_succ_le_zero start)]; rfl

theorem eq_append_of_takeBytes? {cs before : List Char} {n : Nat}
    (h : takeBytes? cs n = some before) :
    ∃ after, cs = before ++ after ∧ byteLength before = n := by
  fun_induction takeBytes? cs n generalizing before with
  | case1 cs =>
    obtain rfl := Option.some.inj h
    exact ⟨cs, rfl, rfl⟩
  | case2 => cases h
  | case3 c cs n hle ih =>
    obtain ⟨rest, hrest, rfl⟩ := Option.map_eq_some_iff.mp h
    obtain ⟨after, rfl, hlen⟩ := ih hrest
    exact ⟨after, rfl, by rw [byteLength_cons, hlen]; omega⟩
  | case4 => cases h

theorem byteLength_of_dropBytes? {cs rest : List Char} {n : Nat} (h : dropBytes? cs n = some rest) :
    byteLength cs = n + byteLength rest := by
  fun_induction dropBytes? cs n with
  | case1 cs =>
    obtain rfl := Option.some.inj h
    omega
  | case2 => cases h
  | case3 c cs n hle ih =>
    have := ih h
    rw [byteLength_cons]
    omega
  | case4 => cases h

/-! ## Longer texts -/

theorem takeBytes?_append_of_le {cs : List Char} {n : Nat} (h : n ≤ byteLength cs)
    (ds : List Char) : takeBytes? (cs ++ ds) n = takeBytes? cs n := by
  induction cs generalizing n with
  | nil =>
    obtain rfl : n = 0 := Nat.le_zero.mp h
    rw [takeBytes?, takeBytes?]
  | cons c cs ih =>
    rw [byteLength_cons] at h
    cases n with
    | zero => rw [takeBytes?, takeBytes?]
    | succ n => rw [List.cons_append, takeBytes?, takeBytes?, ih (by omega)]

theorem dropBytes?_append_of_le {cs : List Char} {n : Nat} (h : n ≤ byteLength cs)
    (ds : List Char) : dropBytes? (cs ++ ds) n = (dropBytes? cs n).map (· ++ ds) := by
  induction cs generalizing n with
  | nil =>
    obtain rfl : n = 0 := Nat.le_zero.mp h
    rw [dropBytes?, dropBytes?, Option.map_some]
  | cons c cs ih =>
    rw [byteLength_cons] at h
    cases n with
    | zero => rw [dropBytes?, dropBytes?, Option.map_some]
    | succ n =>
      rw [List.cons_append, dropBytes?, dropBytes?]
      split
      · rw [ih (by omega)]
      · rfl

/-- What is written behind the end of a range does not change its characters. -/
theorem slice?_append_of_le {cs : List Char} {start stop : Nat} (h : stop ≤ byteLength cs)
    (ds : List Char) : slice? (cs ++ ds) start stop = slice? cs start stop := by
  rw [slice?, slice?]
  split
  · next hle =>
    rw [dropBytes?_append_of_le (by omega), Option.bind_map]
    cases hdrop : dropBytes? cs start with
    | none => rfl
    | some rest =>
      have := byteLength_of_dropBytes? hdrop
      exact takeBytes?_append_of_le (by omega) ds
  · rfl

/-! ## Boundaries -/

/-- The offset lies between two characters of the text, or at one of its ends. -/
def IsBoundary (cs : List Char) (n : Nat) : Prop :=
  ∃ before after, cs = before ++ after ∧ byteLength before = n

/-- A text can be cut exactly at its boundaries. -/
theorem isSome_takeBytes?_iff {cs : List Char} {n : Nat} :
    (takeBytes? cs n).isSome ↔ IsBoundary cs n := by
  rw [Option.isSome_iff_exists]
  constructor
  · rintro ⟨before, h⟩
    obtain ⟨after, hcs, hlen⟩ := eq_append_of_takeBytes? h
    exact ⟨before, after, hcs, hlen⟩
  · rintro ⟨before, after, rfl, rfl⟩
    exact ⟨before, takeBytes?_append before after⟩

instance (cs : List Char) (n : Nat) : Decidable (IsBoundary cs n) :=
  decidable_of_iff _ isSome_takeBytes?_iff

theorem isBoundary_zero (cs : List Char) : IsBoundary cs 0 :=
  ⟨[], cs, rfl, rfl⟩

/-- Two boundaries cut a text into three parts. -/
theorem IsBoundary.exists_split {cs : List Char} {m n : Nat} (hm : IsBoundary cs m)
    (hn : IsBoundary cs n) (hmn : m ≤ n) :
    ∃ before middle after, cs = before ++ middle ++ after ∧ byteLength before = m ∧
      byteLength (before ++ middle) = n := by
  obtain ⟨before, after, rfl, rfl⟩ := hm
  obtain ⟨before', after', hcs, rfl⟩ := hn
  rcases List.append_eq_append_iff.mp hcs with ⟨middle, rfl, rfl⟩ | ⟨middle, rfl, rfl⟩
  · exact ⟨before, middle, after', by rw [List.append_assoc], rfl, rfl⟩
  · -- The second cut is not before the first one, so there is nothing between them.
    rw [byteLength_append] at hmn
    obtain rfl : middle = [] := eq_nil_of_byteLength_eq_zero (by omega)
    exact ⟨before', [], after, by simp, by simp, by simp⟩

end Stepflow.Text
