/-!
# Pieces of a text

* `splitOn`: the pieces between the occurrences of a character.
* `joinWith`: pieces put together with a text between them.
-/

namespace Stepflow.Text

/-- The pieces of a text between the occurrences of `sep`; there is always one more piece than
    there are occurrences. -/
def splitOn (sep : Char) : List Char → List (List Char)
  | [] => [[]]
  | c :: cs =>
    if c = sep then [] :: splitOn sep cs
    else
      match splitOn sep cs with
      | [] => [[c]]
      | piece :: pieces => (c :: piece) :: pieces

/-- The pieces put together again with `sep` between them. -/
def joinWith (sep : List Char) : List (List Char) → List Char
  | [] => []
  | [piece] => piece
  | piece :: pieces => piece ++ sep ++ joinWith sep pieces

end Stepflow.Text
