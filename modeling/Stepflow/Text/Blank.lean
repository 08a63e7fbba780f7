import Stepflow.Text.Pieces

/-!
# Blank characters

The characters of the Unicode property `White_Space`, and the operations on texts that are
defined through them. A text is a list of characters here.

* `isBlank`: membership in the property.
* `trim`, `trimEndsOf`: removal at both ends.
* `words`: the maximal runs without blanks.
-/

namespace Stepflow.Text

/-- The code points of `White_Space`, as ranges with both ends included. -/
def blankRanges : List (Nat × Nat) :=
  [(0x09, 0x0D), (0x20, 0x20), (0x85, 0x85), (0xA0, 0xA0), (0x1680, 0x1680), (0x2000, 0x200A),
    (0x2028, 0x2029), (0x202F, 0x202F), (0x205F, 0x205F), (0x3000, 0x3000)]

/-- The character has the property `White_Space`. -/
def isBlank (c : Char) : Bool :=
  blankRanges.any fun range => range.1 ≤ c.toNat && c.toNat ≤ range.2

/-- The six blanks of ASCII. -/
def isAsciiBlank (c : Char) : Bool :=
  c == ' ' || (0x09 ≤ c.toNat && c.toNat ≤ 0x0D)

/-- Removes the longest end of which every character satisfies `p`. -/
def dropEndWhile (p : Char → Bool) (cs : List Char) : List Char :=
  (cs.reverse.dropWhile p).reverse

/-- Removes the characters that satisfy `p` at both ends. -/
def trimEndsOf (p : Char → Bool) (cs : List Char) : List Char :=
  dropEndWhile p (cs.dropWhile p)

/-- Removes the blanks at both ends. -/
def trim (cs : List Char) : List Char :=
  trimEndsOf isBlank cs

/-- The maximal runs of characters that are not blank; `run` is the run that the text continues. -/
def wordsFrom (run : List Char) : List Char → List (List Char)
  | [] => if run.isEmpty then [] else [run.reverse]
  | c :: cs =>
    if isBlank c then
      if run.isEmpty then wordsFrom [] cs else run.reverse :: wordsFrom [] cs
    else wordsFrom (c :: run) cs

/-- The maximal runs of characters that are not blank. -/
def words (cs : List Char) : List (List Char) :=
  wordsFrom [] cs

/-- The words of a text with one space between them. -/
def squeeze (cs : List Char) : List Char :=
  joinWith [' '] (words cs)

end Stepflow.Text
