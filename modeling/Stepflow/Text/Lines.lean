import Stepflow.Text.Blank

/-!
# Line ends

* `unifyLineEnds`: every run of blanks that holds a line break loses what precedes its last line
  break. So lines do not end in blanks, and there are no empty lines.
-/

namespace Stepflow.Text

/-- The text with the run of blanks that precedes it; `run` is given from its end and holds no line
    break but its first character. -/
def unifyLineEndsFrom (run : List Char) : List Char → List Char
  | [] => run.reverse
  | c :: cs =>
    if c = '\n' then unifyLineEndsFrom ['\n'] cs
    else if isBlank c then unifyLineEndsFrom (c :: run) cs
    else run.reverse ++ c :: unifyLineEndsFrom [] cs

/-- Takes away the blanks and line breaks in front of a line break. -/
def unifyLineEnds (cs : List Char) : List Char :=
  unifyLineEndsFrom [] cs

end Stepflow.Text
