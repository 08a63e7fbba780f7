/-!
# Patterns for paths

A pattern is matched against a whole path. `?` stands for one character, `*` for any number of them,
also across separators. `[...]` stands for one of several characters and `[!...]` for any other.
`**` must be a whole component and stands for any number of components.

* `Piece`: the pieces of a pattern.
* `parse?`: the pieces of a written pattern.
* `isMatch`: whether a path fits.
-/

namespace Stepflow.Glob

/-- Characters between two ends, both included. -/
structure Range where
  first : Char
  last : Char
  deriving DecidableEq, Repr

/-- The character lies in the range. -/
def Range.contains (r : Range) (c : Char) : Bool :=
  r.first ≤ c && c ≤ r.last

/-- A piece of a pattern. -/
inductive Piece where
  | char (c : Char)
  | any
  | within (ranges : List Range)
  | except (ranges : List Range)
  | sequence
  | components
  deriving DecidableEq, Repr

/-- The separator of components. -/
def separator : Char := '/'

/-! ## Reading -/

/-- The ranges of a class; a single character is a range of its own. -/
def ranges : List Char → List Range
  | first :: '-' :: last :: cs => ⟨first, last⟩ :: ranges cs
  | c :: cs => ⟨c, c⟩ :: ranges cs
  | [] => []

/-- The characters of a class and what follows it. The first character belongs to the class whatever
    it is. -/
def classOf? : List Char → Option (List Char × List Char)
  | [] => none
  | c :: cs =>
    match cs.dropWhile (· != ']') with
    | [] => none
    | _ :: rest => some (c :: cs.takeWhile (· != ']'), rest)

/-- The piece of a class behind its opening bracket, and what follows it. -/
def classPiece? : List Char → Option (Piece × List Char)
  | '!' :: cs => (classOf? cs).map fun (inside, rest) => (.except (ranges inside), rest)
  | cs => (classOf? cs).map fun (inside, rest) => (.within (ranges inside), rest)

/-- A whole component stands here: `last` is the character in front, `rest` what follows. A
    separator behind it belongs to it. -/
def componentEnd? (last : Option Char) (rest : List Char) : Option (List Char) :=
  if last.all (· == separator) then
    match rest with
    | [] => some []
    | c :: cs => if c = separator then some cs else none
  else none

/-- The pieces of a pattern behind the character `last`; the first argument bounds their number. -/
def pieces? : Nat → Option Char → List Char → Option (List Piece)
  | _, _, [] => some []
  | 0, _, _ :: _ => none
  | fuel + 1, last, c :: cs =>
    if c = '?' then (pieces? fuel (some c) cs).map (.any :: ·)
    else if c = '[' then do
      let (piece, rest) ← classPiece? cs
      (pieces? fuel (some ']') rest).map (piece :: ·)
    else if c = '*' then
      match (c :: cs).takeWhile (· == '*') with
      | [_] => (pieces? fuel (some c) cs).map (.sequence :: ·)
      | [_, _] => do
        let rest ← componentEnd? last (cs.drop 1)
        (pieces? fuel (some separator) rest).map (.components :: ·)
      | _ => none
    else (pieces? fuel (some c) cs).map (.char c :: ·)

/-- The pieces of a written pattern; `none` if it is no pattern. -/
def parse? (pattern : String) : Option (List Piece) :=
  pieces? pattern.length none pattern.toList

/-! ## Matching -/

/-- Some rest of the text satisfies `p`. -/
def someRest (p : List Char → Bool) : List Char → Bool
  | [] => p []
  | c :: cs => p (c :: cs) || someRest p cs

/-- Some rest of the text that follows a separator satisfies `p`. -/
def someComponent (p : List Char → Bool) : List Char → Bool
  | [] => false
  | c :: cs => (c == separator && p cs) || someComponent p cs

/-- The text begins with a character that satisfies `p`, and its rest satisfies `q`. -/
def oneThen (p : Char → Bool) (q : List Char → Bool) : List Char → Bool
  | [] => false
  | c :: cs => p c && q cs

/-- The whole text fits the pieces. -/
def fits : List Piece → List Char → Bool
  | [], cs => cs.isEmpty
  | .char c :: ps, cs => oneThen (· == c) (fits ps) cs
  | .any :: ps, cs => oneThen (fun _ => true) (fits ps) cs
  | .within rs :: ps, cs => oneThen (fun c => rs.any (·.contains c)) (fits ps) cs
  | .except rs :: ps, cs => oneThen (fun c => !rs.any (·.contains c)) (fits ps) cs
  | .sequence :: ps, cs => someRest (fits ps) cs
  | .components :: [], _ => true
  | .components :: p :: ps, cs => fits (p :: ps) cs || someComponent (fits (p :: ps)) cs

/-- A path fits a written pattern. What is no pattern fits nothing. -/
def isMatch (pattern path : String) : Bool :=
  (parse? pattern).any fun ps => fits ps path.toList

end Stepflow.Glob
