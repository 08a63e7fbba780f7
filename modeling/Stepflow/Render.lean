import Stepflow.Json.Writer
import Stepflow.Yaml.Writer

/-!
# Rendered results

* `Format`: the formats in which results are written.
* `render`: a result as text.
-/

namespace Stepflow

/-- The formats in which results are written. -/
inductive Format where
  | json
  | yaml
  deriving DecidableEq, Repr

namespace Format

/-- The formats by their names. -/
def byName : List (String × Format) :=
  [("json", json), ("yaml", yaml)]

/-- The format that is used if none is asked for. -/
def standard : Format := json

end Format

/-- A result as text. Only JSON has a pretty form; YAML always has a line for every item. -/
def render (format : Format) (pretty : Bool) (v : Json.Value) : String :=
  match format with
  | .json => Json.write pretty v
  | .yaml => Yaml.write v

end Stepflow
