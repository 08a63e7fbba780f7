/-!
# Byte ranges of a text

Offsets into a text count the bytes of its UTF-8 form. A range is usable only if it lies inside
the text and both ends fall between two characters.

* `dropBytes?`, `takeBytes?`: what follows and what precedes an offset.
* `slice?`: the characters of a range.
-/

namespace Stepflow.Text

/-- Length of a text in bytes. -/
def byteLength (cs : List Char) : Nat :=
  cs.foldr (fun c n => c.utf8Size + n) 0

/-- The text behind its first `n` bytes; `none` if it is shorter or the offset cuts a character. -/
def dropBytes? : List Char → Nat → Option (List Char)
  | cs, 0 => some cs
  | [], _ + 1 => none
  | c :: cs, n + 1 => if c.utf8Size ≤ n + 1 then dropBytes? cs (n + 1 - c.utf8Size) else none

/-- The first `n` bytes of a text; `none` if it is shorter or the offset cuts a character. -/
def takeBytes? : List Char → Nat → Option (List Char)
  | _, 0 => some []
  | [], _ + 1 => none
  | c :: cs, n + 1 =>
    if c.utf8Size ≤ n + 1 then (takeBytes? cs (n + 1 - c.utf8Size)).map (c :: ·) else none

/-- The characters between two byte offsets. -/
def slice? (cs : List Char) (start stop : Nat) : Option (List Char) :=
  if start ≤ stop then (dropBytes? cs start).bind (takeBytes? · (stop - start)) else none

/-- The characters between two byte offsets, and nothing where the range does not fit. -/
def slice (cs : List Char) (start stop : Nat) : List Char :=
  (slice? cs start stop).getD []

end Stepflow.Text
