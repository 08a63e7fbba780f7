import Stepflow.Arena.OfTree
import Stepflow.Error
import Stepflow.Flow.OfArena
import Stepflow.Source.Options
import Stepflow.Text.Lines

/-!
# Extraction

From a source text to its charts.

* `Reader`: whatever makes a tree of a text.
* `firstFault?`: the first invalid node of an arena.
* `extract`: the charts of a source, with the text that their spans refer to.
-/

namespace Stepflow.Source

open Text

/-- Makes a tree of a text, or fails. -/
abbrev Reader := Options → String → Except Error Tree

/-! ## Validation -/

/-- The visitor that remembers the first invalid node and stops there. -/
def faultVisitor (a : Arena) : Visitor (Option Nat) where
  fallback id := do
    if (← get).isNone && a.kind? id == some .invalid then set (some id)
    return some (← get).isNone

/-- The place of the first invalid node. -/
def firstFault? (a : Arena) : Option Nat :=
  match a.root? with
  | some root => ((a.walk (faultVisitor a) root).run none).2
  | none => none

/-- The line of a byte, counted in 32 bits; 0 if it is not the start of a character of the text. -/
def lineAt (source : List Char) (byte : Nat) : UInt32 :=
  match takeBytes? source byte with
  | some before => (before.count '\n').toUInt32 + 1
  | none => 0

/-- An arena with an invalid node is refused. -/
def validate (a : Arena) (source : List Char) : Except Error Unit :=
  match (firstFault? a).bind a.node? with
  | some n => .error (.fault n.span.start (lineAt source n.span.start))
  | none => .ok ()

/-! ## Charts -/

/-- What a source gives: its charts, and the text that their spans refer to. -/
structure Extract where
  charts : List Flow.Chart
  text : String
  deriving DecidableEq, Repr

/-- The charts of a source. Its line ends are unified before it is read. -/
def extract (reader : Reader) (source : String) : Except Error Extract := do
  let text := unifyLineEnds source.toList
  let tree ← reader .standard (String.ofList text)
  let arena := Arena.ofTree tree text
  validate arena text
  return { charts := Flow.charts arena text, text := String.ofList text }

end Stepflow.Source
