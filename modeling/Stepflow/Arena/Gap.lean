import Stepflow.Arena.Basic
import Stepflow.Text.Blank

/-!
# Gaps

The text between a node and the one before it in an arena is the node's gap. It holds the comment
and the indentation of the node.

* `gapStart`: where the gap begins.
* `commentOf`, `indentationOf`: what a gap says.
-/

namespace Stepflow

open Text

/-- The gap of a node begins where the node before it ends. A node that ends later lies around it,
    and the gap begins with that node. -/
def gapStart (last next : Span) : Nat :=
  if next.start < last.stop then last.start else last.stop

/-- The text of a gap; nothing if the range does not fit the source. -/
def gap (source : List Char) (last next : Span) : List Char :=
  slice source (gapStart last next) next.start

/-- The rest of a text from its first comment mark on. -/
def commentOf : List Char → Option (List Char)
  | [] => none
  | '/' :: '/' :: cs => some ('/' :: '/' :: cs)
  | '/' :: '*' :: cs => some ('/' :: '*' :: cs)
  | _ :: cs => commentOf cs

/-- The part of a text behind its last line break. -/
def lastLine (cs : List Char) : List Char :=
  (cs.reverse.takeWhile (· != '\n')).reverse

/-- The blanks of the last line of a text, if there are any. -/
def indentationOf (cs : List Char) : Option (List Char) :=
  let blanks := (lastLine cs).filter isBlank
  if blanks.isEmpty then none else some blanks

/-- The node with what its gap says. -/
def Node.withGap (gap : List Char) (n : Node) : Node :=
  { n with
    comment := (commentOf gap).map String.ofList
    indentation := (indentationOf gap).map String.ofList }

/-- Gives each node what its gap says; `last` is the span of the node before them. -/
def attachGaps (source : List Char) (last : Span) : List Node → List Node
  | [] => []
  | n :: rest => n.withGap (gap source last n.span) :: attachGaps source n.span rest

end Stepflow
