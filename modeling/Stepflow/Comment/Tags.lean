import Stepflow.Comment.Segments

/-!
# Tags of a comment

A tag is a key with a value. Values of one key are joined, separated by a space.

* `Tags`: keys with their values, in the order of their first occurrence.
* `headers`: the tags that describe a chart, written `@codeflow key value`.
* `annotations`: the tags that describe a step, written `@key value`; text in front of them belongs
  to the key `info`.
-/

namespace Stepflow.Comment

open Text

/-- Keys with their values. -/
abbrev Tags := List (String × String)

namespace Tags

/-- Adds a value to a key: behind the value that it has, unless that is empty. -/
def add (key value : String) : Tags → Tags
  | [] => [(key, value)]
  | (k, v) :: tags =>
    if k = key then (k, if v.isEmpty then value else v ++ " " ++ value) :: tags
    else (k, v) :: add key value tags

/-- The value of a key, if it is not empty. -/
def get? (key : String) (tags : Tags) : Option String :=
  (tags.lookup key).filter fun value => !value.isEmpty

/-- The identifier and the name of a chart, if both are given. -/
def identity? (tags : Tags) : Option (String × String) := do
  let id ← tags.get? "id"
  let name ← tags.get? "name"
  return (id, name)

end Tags

/-- A word, a space, and the rest of a segment. -/
def keyed? (cs : List Char) : Option (String × String) :=
  let key := cs.takeWhile fun c => !isBlank c
  if key.isEmpty then none
  else
    match cs.dropWhile fun c => !isBlank c with
    | ' ' :: value => some (String.ofList key, String.ofList value)
    | _ => none

/-- The word that introduces a tag of a chart. -/
def headerMark : List Char := "codeflow ".toList

/-- A tag of a chart. -/
def header? (segment : List Char) : Option (String × String) :=
  if headerMark.isPrefixOf segment then
    (keyed? (segment.drop headerMark.length)).filter fun tag => !tag.2.isEmpty
  else none

/-- Adds the tags that are found in segments. -/
def gather (tag? : List Char → Option (String × String)) (tags : Tags)
    (segments : List (List Char)) : Tags :=
  segments.foldl (fun tags segment =>
    match tag? segment with
    | some (key, value) => tags.add key value
    | none => tags) tags

/-- The tags of a chart. Text in front of the first tag is ignored. -/
def headers (comment : String) : Tags :=
  gather header? [] ((segments comment.toList).drop 1)

/-- What a comment says about a step. -/
structure Annotations where
  name : Option String
  info : Option String
  px : Option String
  deriving DecidableEq, Repr

/-- The tags of a step. Text in front of the first tag is the start of `info`. -/
def annotations (comment : String) : Annotations :=
  let tags := match segments comment.toList with
    | [] => []
    | preamble :: tagged => gather keyed? [("info", String.ofList preamble)] tagged
  { name := Tags.get? "name" tags, info := Tags.get? "info" tags, px := Tags.get? "px" tags }

end Stepflow.Comment
