import Stepflow.Json.Decode
import Stepflow.Json.Writer

/-!
# Options of a reader

What a reader of source texts is told about the language of a text.

* `Options`: the settings; `Options.standard` is what extraction uses.
* `Options.json`, `Options.decoder`: the settings as JSON.
-/

namespace Stepflow.Source

open Json (Value Decoder)

/-- The language family of a text. -/
inductive Language where
  | typescript
  | ecmascript
  deriving DecidableEq, Repr

/-- The language families by their names. -/
def Language.byName : List (String × Language) :=
  [("typescript", .typescript), ("ecmascript", .ecmascript)]

/-- The name of a language family. -/
def Language.name : Language → String
  | .typescript => "typescript"
  | .ecmascript => "ecmascript"

/-- The settings of a reader. `script` asks for a script instead of a module. -/
structure Options where
  language : Language
  target : String
  comments : Bool
  decorators : Bool
  dynamicImport : Bool
  script : Bool
  tsx : Bool
  deriving DecidableEq, Repr

namespace Options

/-- TypeScript with markup, decorators and dynamic import, comments kept, as a module. -/
def standard : Options where
  language := .typescript
  target := "es2022"
  comments := true
  decorators := true
  dynamicImport := true
  script := false
  tsx := true

/-- The settings as JSON. -/
def json (o : Options) : Value :=
  .object [("syntax", .string o.language.name), ("target", .string o.target),
    ("comments", .bool o.comments), ("decorators", .bool o.decorators),
    ("dynamicImport", .bool o.dynamicImport), ("script", .bool o.script), ("tsx", .bool o.tsx)]

/-- What is known of the settings while they are read. -/
structure Draft where
  language : Option Language := none
  target : Option String := none
  comments : Option Bool := none
  decorators : Option Bool := none
  dynamicImport : Option Bool := none
  script : Option Bool := none
  tsx : Option Bool := none

/-- The keys of the settings. -/
def slots : List (Decoder.Slot Draft) :=
  [Decoder.slot "syntax" (Decoder.name Language.byName) fun x o => { o with language := some x },
    Decoder.slot "target" Decoder.text fun x o => { o with target := some x },
    Decoder.slot "comments" Decoder.bool fun x o => { o with comments := some x },
    Decoder.slot "decorators" Decoder.bool fun x o => { o with decorators := some x },
    Decoder.slot "dynamicImport" Decoder.bool fun x o => { o with dynamicImport := some x },
    Decoder.slot "script" Decoder.bool fun x o => { o with script := some x },
    Decoder.slot "tsx" Decoder.bool fun x o => { o with tsx := some x }]

/-- Reads the settings; all of them must be given. -/
def decoder : Decoder Options := fun v => do
  let o ← Decoder.record slots {} v
  return { language := ← Decoder.required o.language, target := ← Decoder.required o.target,
           comments := ← Decoder.required o.comments,
           decorators := ← Decoder.required o.decorators,
           dynamicImport := ← Decoder.required o.dynamicImport,
           script := ← Decoder.required o.script, tsx := ← Decoder.required o.tsx }

end Options

end Stepflow.Source
