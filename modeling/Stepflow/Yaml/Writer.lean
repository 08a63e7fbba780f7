import Stepflow.Json.Value
import Stepflow.Yaml.Scalar

/-!
# Writing YAML

Values in block style. The items of a list under a key stand at the indentation of the key, the
members of an object two columns further.

* `write`: the text of a value.
-/

namespace Stepflow.Yaml

open Json (Value)

/-- The text of a number; positive exponents have no sign. -/
def writeFloat : Double → List Char
  | .infinite negative => (if negative then "-.inf" else ".inf").toList
  | .nan => ".nan".toList
  | x => (x.scientific "").toList

/-- The text of a value that stands on one line or is a text; `none` for others. -/
def scalar? (indent : Nat) : Value → Option (List Char)
  | .null | .unfit | .stray | .broken => some "null".toList
  | .bool b => some (if b then "true" else "false").toList
  | .int n => some (toString n).toList
  | .float x => some (writeFloat x)
  | .string s => some (writeText indent s)
  | .array [] => some ['[', ']']
  | .object [] => some ['{', '}']
  | .array (_ :: _) | .object (_ :: _) | .variant _ _ => none

mutual

/-- A value at the column `indent`, to which the line is already filled. -/
def writeItem (indent : Nat) : Value → List Char
  | .array (v :: vs) => '-' :: ' ' :: writeItem (indent + 2) v ++ writeItems indent vs
  | .object ((k, v) :: ms) =>
    k.toList ++ ':' :: writeMember indent v ++ writeMembers indent ms
  | .variant tag v => '!' :: tag.toList ++ writeTagged indent v
  | v => (scalar? indent v).getD []

/-- The items behind the first one. -/
def writeItems (indent : Nat) : List Value → List Char
  | [] => []
  | v :: vs => newline indent ++ '-' :: ' ' :: writeItem (indent + 2) v ++ writeItems indent vs

/-- The members behind the first one. -/
def writeMembers (indent : Nat) : List (String × Value) → List Char
  | [] => []
  | (k, v) :: ms =>
    newline indent ++ k.toList ++ ':' :: writeMember indent v ++ writeMembers indent ms

/-- A value behind a tag in a list. -/
def writeTagged (indent : Nat) : Value → List Char
  | .array (v :: vs) =>
    newline indent ++ '-' :: ' ' :: writeItem (indent + 2) v ++ writeItems indent vs
  | .object ((k, v) :: ms) =>
    newline indent ++ k.toList ++ ':' :: writeMember indent v ++ writeMembers indent ms
  | .variant tag v => ' ' :: '!' :: tag.toList ++ writeTagged indent v
  | v => ' ' :: (scalar? indent v).getD []

/-- A value behind a key at the column `indent`. -/
def writeMember (indent : Nat) : Value → List Char
  | .array (v :: vs) =>
    newline indent ++ '-' :: ' ' :: writeItem (indent + 2) v ++ writeItems indent vs
  | .object ((k, v) :: ms) =>
    newline (indent + 2) ++ k.toList ++ ':' :: writeMember (indent + 2) v ++
      writeMembers (indent + 2) ms
  | .variant tag v => ' ' :: '!' :: tag.toList ++ writeMember indent v
  | v => ' ' :: (scalar? (indent + 2) v).getD []

end

/-- The text of a value. A text that is a value of its own is indented by two columns. -/
def write (v : Value) : String :=
  String.ofList ((match v with
    | .string s => writeText 2 s
    | v => writeItem 0 v) ++ ['\n'])

end Stepflow.Yaml
