import Stepflow.Text.Blank

/-!
# Segments of a comment

A comment is cut at every `@`. What is left of comment marks inside a segment counts as a blank,
slashes and stars at its ends are dropped, and its words are separated by single spaces.

* `segments`: the segments of a comment. The first one stands in front of all tags.
-/

namespace Stepflow.Comment

open Text

/-- Slashes followed by stars, or stars followed by slashes, become one space. -/
def blankMarks : List Char → List Char
  | [] => []
  | c :: cs =>
    if c = '/' then
      let behind := cs.dropWhile (· == '/')
      if behind.head? = some '*' then ' ' :: blankMarks (behind.dropWhile (· == '*'))
      else '/' :: blankMarks cs
    else if c = '*' then
      let behind := cs.dropWhile (· == '*')
      if behind.head? = some '/' then ' ' :: blankMarks (behind.dropWhile (· == '/'))
      else '*' :: blankMarks cs
    else c :: blankMarks cs
termination_by cs => cs.length
decreasing_by
  all_goals simp_wf
  · have h₁ := (List.dropWhile_suffix (l := cs) (· == '/')).length_le
    have h₂ := (List.dropWhile_suffix (l := cs.dropWhile (· == '/')) (· == '*')).length_le
    omega
  · have h₁ := (List.dropWhile_suffix (l := cs) (· == '*')).length_le
    have h₂ := (List.dropWhile_suffix (l := cs.dropWhile (· == '*')) (· == '/')).length_le
    omega

/-- A character that is dropped at the ends of a segment. -/
def isMargin (c : Char) : Bool :=
  c == '/' || c == '*' || isBlank c

/-- A segment without comment marks, its words separated by single spaces. -/
def cleaned (cs : List Char) : List Char :=
  squeeze (trimEndsOf isMargin (blankMarks cs))

/-- The segments of a comment. -/
def segments (cs : List Char) : List (List Char) :=
  (splitOn '@' cs).map cleaned

end Stepflow.Comment
