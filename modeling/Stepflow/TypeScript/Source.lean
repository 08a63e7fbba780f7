import Stepflow.Source.Extract
import Stepflow.Tree.OfConcrete
import Stepflow.TypeScript.Reader

/-!
# TypeScript as a source

* `dialect`: the dialect that the options ask for.
* `readerOf`: the reader that a way to concrete trees gives.
* `reader`: the reader of TypeScript.
* `extract`: the charts of a TypeScript text.
-/

namespace Stepflow.TypeScript

/-- Markup is read unless the options ask for TypeScript without it. -/
def dialect (o : Source.Options) : Dialect :=
  if o.language = .typescript ∧ o.tsx = false then .plain else .markup

/-- The reader that makes trees of the concrete trees of texts. -/
def readerOf (concrete : Source.Options → List Char → Concrete) : Source.Reader := fun o text =>
  match (concrete o text.toList).tree? with
  | some tree => .ok tree
  | none => .error (.parse "source did not produce a program node" (some 0))

/-- The reader of TypeScript. -/
def reader : Source.Reader :=
  readerOf fun o text => readProgram (dialect o) text

/-- The charts of a TypeScript text. -/
def extract (source : String) : Except Error Source.Extract :=
  Source.extract reader source

end Stepflow.TypeScript
