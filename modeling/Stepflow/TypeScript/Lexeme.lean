import Stepflow.Text.Blank
import Stepflow.Text.Bytes

/-!
# Lexemes of TypeScript

Recognisers of single tokens. Each one looks at the front of the unread text and gives the token's
characters and what follows them.

* `isSpace`, `comment?`, `skipTrivia`: what may stand between two tokens.
* `word`, `number`, `escape`, `punctuator`: the token classes; each takes as much as it can.
* `templateRun`, `regexBody`, `markupText`: tokens that only exist inside a larger construct.
-/

namespace Stepflow.TypeScript

open Stepflow.Text

/-- A recogniser: the characters of a token at the front of a text, and the text behind it. -/
abbrev Scan := List Char → Option (List Char × List Char)

/-! ## Between tokens -/

/-- Blanks, and the invisible characters that count as blanks between tokens. -/
def isSpace (c : Char) : Bool :=
  isBlank c || c.toNat == 0xFEFF || c.toNat == 0x2060 || c.toNat == 0x200B

/-- The characters that end a line comment. -/
def isLineEnd (c : Char) : Bool :=
  c == '\n' || c == '\r' || c.toNat == 0x2028 || c.toNat == 0x2029

/-- The text up to and including the first `*/`. -/
def blockEnd? : Scan
  | [] => none
  | '*' :: '/' :: cs => some (['*', '/'], cs)
  | c :: cs => (blockEnd? cs).map fun found => (c :: found.1, found.2)

/-- A comment; a block comment that is not closed is none. -/
def comment? : Scan
  | '/' :: '/' :: cs =>
    some ('/' :: '/' :: cs.takeWhile (!isLineEnd ·), cs.dropWhile (!isLineEnd ·))
  | '/' :: '*' :: cs => (blockEnd? cs).map fun found => ('/' :: '*' :: found.1, found.2)
  | _ => none

theorem blockEnd?_length {cs text rest : List Char} (h : blockEnd? cs = some (text, rest)) :
    rest.length ≤ cs.length := by
  fun_induction blockEnd? cs generalizing text rest with
  | case1 => simp at h
  | case2 cs => simp at h; simp [← h.2]; omega
  | case3 c cs _ ih =>
    obtain ⟨⟨inner, after⟩, hf, he⟩ := Option.map_eq_some_iff.1 h
    have := ih hf
    simp at he
    simp [← he.2]; omega

theorem comment?_length {cs text rest : List Char} (h : comment? cs = some (text, rest)) :
    rest.length < cs.length := by
  unfold comment? at h
  split at h
  · simp at h
    rw [← h.2]
    simp only [List.length_cons]
    exact Nat.lt_succ_of_le (Nat.le_succ_of_le (List.dropWhile_suffix _).length_le)
  · obtain ⟨⟨inner, after⟩, hf, he⟩ := Option.map_eq_some_iff.1 h
    have := blockEnd?_length hf
    simp at he
    simp [← he.2]; omega
  · simp at h

/-- The text behind its leading blanks, with its byte offset. -/
def skipSpaces : List Char → Nat → List Char × Nat
  | [], offset => ([], offset)
  | c :: cs, offset => if isSpace c then skipSpaces cs (offset + c.utf8Size) else (c :: cs, offset)

theorem skipSpaces_length (cs : List Char) (offset : Nat) :
    (skipSpaces cs offset).1.length ≤ cs.length := by
  induction cs generalizing offset with
  | nil => simp [skipSpaces]
  | cons c cs ih =>
    unfold skipSpaces
    split
    · exact Nat.le_succ_of_le (ih _)
    · simp

/-- The text behind its leading blanks and comments, with its byte offset. -/
def skipTrivia (cs : List Char) (offset : Nat) : List Char × Nat :=
  match _h : comment? (skipSpaces cs offset).1 with
  | none => skipSpaces cs offset
  | some (text, rest) => skipTrivia rest ((skipSpaces cs offset).2 + byteLength text)
termination_by cs.length
decreasing_by
  have := comment?_length _h
  have := skipSpaces_length cs offset
  omega

/-! ## Implied semicolons -/

/-- The characters that continue a statement on the next line. -/
def continuesLine : List Char :=
  ['`', ',', '.', ';', '*', '%', '>', '<', '=', '?', '^', '|', '&', '/', ':']

/-- What may follow the place where a semicolon is looked for: an operator with two operands, or
    the body of a function. -/
structure Outlook where
  operator : Bool
  body : Bool
  deriving DecidableEq, Repr

/-- The blanks and comments in front of a line are skipped; `none` if a `/` starts neither. -/
def lineStart? (cs : List Char) : Option (List Char) :=
  match _h : comment? (cs.dropWhile isAsciiBlank) with
  | some (_, rest) => lineStart? rest
  | none =>
    if (cs.dropWhile isAsciiBlank).head? = some '/' then none
    else some (cs.dropWhile isAsciiBlank)
termination_by cs.length
decreasing_by
  have := comment?_length _h
  have : (cs.dropWhile isAsciiBlank).length ≤ cs.length := (List.dropWhile_suffix _).length_le
  omega

/-- The word `in` or `instanceof` stands at the front of the text. -/
def startsRelation : List Char → Bool
  | 'i' :: 'n' :: cs =>
    !(cs.headD ' ').isAlpha ||
      (match cs with
        | 's' :: 't' :: 'a' :: 'n' :: 'c' :: 'e' :: 'o' :: 'f' :: rest => !(rest.headD ' ').isAlpha
        | _ => false)
  | _ => false

/-- A line that starts with `cs` begins a new statement. -/
def startsStatement (outlook : Outlook) : List Char → Bool
  | [] => true
  | c :: cs =>
    if continuesLine.contains c then false
    else if c == '{' then !outlook.body
    else if c == '(' || c == '[' then !outlook.operator
    else if c == '+' || c == '-' then cs.head? == some c
    else if c == '!' then cs.head? != some '='
    else !startsRelation (c :: cs)

/-- A semicolon is implied at the front of `cs`: at the end of the text, before a closing brace,
    or at the end of a line if the next one begins a new statement. -/
def impliesSemicolon (outlook : Outlook) (cs : List Char) : Bool :=
  match cs.dropWhile fun c => isAsciiBlank c && c != '\n' with
  | [] => true
  | '\n' :: rest =>
    match lineStart? rest with
    | none => false
    | some line => startsStatement outlook line
  | c :: rest =>
    c == '}' && ((rest.dropWhile isAsciiBlank).head? != some ':' || outlook.operator)

/-! ## Words and numbers -/

/-- ASCII characters that no word contains. -/
def punctuation : List Char :=
  [':', ';', '`', '"', '\'', '@', '#', '.', ',', '|', '^', '&', '<', '=', '>', '+', '-', '*', '/',
    '\\', '%', '?', '!', '~', '(', ')', '[', ']', '{', '}']

/-- A character that may stand in a word. -/
def isWordChar (c : Char) : Bool :=
  c.isAlphanum || (0x20 ≤ c.toNat && !isSpace c && !punctuation.contains c)

def isHexDigit (c : Char) : Bool :=
  c.isDigit || ('a' ≤ c && c ≤ 'f') || ('A' ≤ c && c ≤ 'F')

def isOctalDigit (c : Char) : Bool :=
  '0' ≤ c && c ≤ '7'

def isBinaryDigit (c : Char) : Bool :=
  c == '0' || c == '1'

/-- Four hexadecimal digits, or any number of them in braces: what follows a `\u`. -/
def codePoint? : Scan
  | '{' :: cs =>
    let digits := cs.takeWhile isHexDigit
    match cs.dropWhile isHexDigit with
    | '}' :: rest => if digits.isEmpty then none else some ('{' :: digits ++ ['}'], rest)
    | _ => none
  | a :: b :: c :: d :: cs =>
    if isHexDigit a && isHexDigit b && isHexDigit c && isHexDigit d then some ([a, b, c, d], cs)
    else none
  | _ => none

theorem codePoint?_length {cs text rest : List Char} (h : codePoint? cs = some (text, rest)) :
    rest.length < cs.length := by
  unfold codePoint? at h
  split at h
  · rename_i cs
    dsimp only at h
    split at h
    · rename_i r hr
      split at h
      · simp at h
      · have hl : (cs.dropWhile isHexDigit).length ≤ cs.length :=
          (List.dropWhile_suffix _).length_le
        rw [hr] at hl
        simp at h hl ⊢
        rw [← h.2]; omega
    · simp at h
  · split at h
    · simp at h; simp [← h.2]; omega
    · simp at h
  · simp at h

/-- The longest run of word characters and escaped code points. -/
def wordRun (cs : List Char) : List Char × List Char :=
  match cs with
  | [] => ([], [])
  | c :: cs =>
    if isWordChar c then
      let tail := wordRun cs
      (c :: tail.1, tail.2)
    else if c = '\\' then
      match cs with
      | 'u' :: after =>
        match _h : codePoint? after with
        | some (point, rest) =>
          let tail := wordRun rest
          ('\\' :: 'u' :: point ++ tail.1, tail.2)
        | none => ([], c :: 'u' :: after)
      | _ => ([], c :: cs)
    else ([], c :: cs)
termination_by cs.length
decreasing_by
  · simp
  · have := codePoint?_length _h
    simp; omega

/-- A word: a name or a keyword. It does not start with a digit. -/
def word? : Scan := fun cs =>
  let run := wordRun cs
  match run.1 with
  | [] => none
  | c :: _ => if c.isDigit then none else some run

/-- A word behind a `#`. -/
def privateName? : Scan
  | '#' :: cs => (word? cs).map fun found => ('#' :: found.1, found.2)
  | _ => none

/-- Digits with single underscores between them. -/
def digitTail (p : Char → Bool) : List Char → List Char × List Char
  | [] => ([], [])
  | '_' :: c :: cs =>
    if p c then
      let tail := digitTail p cs
      ('_' :: c :: tail.1, tail.2)
    else ([], '_' :: c :: cs)
  | c :: cs =>
    if p c then
      let tail := digitTail p cs
      (c :: tail.1, tail.2)
    else ([], c :: cs)

/-- A digit, then digits with single underscores between them. -/
def digits? (p : Char → Bool) : Scan
  | [] => none
  | c :: cs =>
    if p c then
      let tail := digitTail p cs
      some (c :: tail.1, tail.2)
    else none

/-- The exponent of a decimal numeral. -/
def exponent? : Scan
  | [] => none
  | e :: cs =>
    if e == 'e' || e == 'E' then
      match cs with
      | sign :: after =>
        if sign == '+' || sign == '-' then
          (digits? Char.isDigit after).map fun found => (e :: sign :: found.1, found.2)
        else (digits? Char.isDigit cs).map fun found => (e :: found.1, found.2)
      | [] => none
    else none

/-- One token and, if there is one, a second behind it. -/
def thenMaybe (first second : Scan) : Scan := fun cs =>
  (first cs).map fun found =>
    match second found.2 with
    | some more => (found.1 ++ more.1, more.2)
    | none => found

/-- The letter that marks an integer of any size. -/
def bigMark? : Scan
  | 'n' :: cs => some (['n'], cs)
  | _ => none

/-- The digits of an integer that may carry a fraction: no zero in front but a single one. -/
def mayHaveFraction : List Char → Bool
  | ['0'] => true
  | '0' :: c :: _ => c.isDigit && c != '0'
  | _ => true

/-- A point with the digits behind it, if any. -/
def fraction? : Scan
  | '.' :: cs =>
    match digits? Char.isDigit cs with
    | some found => some ('.' :: found.1, found.2)
    | none => some (['.'], cs)
  | _ => none

/-- A decimal numeral. -/
def decimal? : Scan
  | '.' :: cs =>
    thenMaybe (fun cs => (digits? Char.isDigit cs).map fun found => ('.' :: found.1, found.2))
      exponent? cs
  | cs =>
    match digits? Char.isDigit cs with
    | none => none
    | some (whole, rest) =>
      match rest with
      | 'n' :: after => some (whole ++ ['n'], after)
      | _ =>
        if mayHaveFraction whole then
          match fraction? rest with
          | some found =>
            (thenMaybe (fun _ => some (whole ++ found.1, found.2)) exponent?) rest
          | none => thenMaybe (fun _ => some (whole, rest)) exponent? rest
        else some (whole, rest)

/-- A numeral with a radix letter: the digits of that radix behind `0` and the letter. -/
def radixNumber? (letter : Char) (p : Char → Bool) : Scan
  | '0' :: c :: cs =>
    if c.toLower == letter then
      thenMaybe (fun cs => (digits? p cs).map fun found => ('0' :: c :: found.1, found.2))
        bigMark? cs
    else none
  | _ => none

/-- A number. -/
def number? : Scan := fun cs =>
  (radixNumber? 'x' isHexDigit cs <|> radixNumber? 'o' isOctalDigit cs <|>
    radixNumber? 'b' isBinaryDigit cs) <|> decimal? cs

/-! ## Strings, templates, regular expressions -/

/-- The longest non-empty run of characters that satisfy `p`. -/
def run? (p : Char → Bool) : Scan := fun cs =>
  let text := cs.takeWhile p
  if text.isEmpty then none else some (text, cs.dropWhile p)

/-- A stretch of a string without escapes. -/
def stringRun? (quote : Char) : Scan :=
  run? fun c => c != quote && c != '\\' && c != '\r' && c != '\n'

/-- An escape: a backslash and one to three octal digits, two hexadecimal ones behind `x`, a code
    point behind `u`, a line break, or any other character. -/
def escape? : Scan
  | '\\' :: c :: cs =>
    if isOctalDigit c then
      let more := (cs.take 2).takeWhile isOctalDigit
      some ('\\' :: c :: more, cs.drop more.length)
    else if c == 'x' then
      match cs with
      | a :: b :: rest =>
        if isHexDigit a && isHexDigit b then some (['\\', 'x', a, b], rest) else none
      | _ => none
    else if c == 'u' then
      (codePoint? cs).map fun found => ('\\' :: 'u' :: found.1, found.2)
    else if c == '\r' && cs.head? == some '\n' then some (['\\', c, '\n'], cs.drop 1)
    else some (['\\', c], cs)
  | _ => none

/-- The characters of a template up to its end, an escape or a substitution. -/
def templateChars : List Char → List Char × List Char
  | [] => ([], [])
  | '$' :: '{' :: cs => ([], '$' :: '{' :: cs)
  | c :: cs =>
    if c == '`' || c == '\\' then ([], c :: cs)
    else
      let tail := templateChars cs
      (c :: tail.1, tail.2)

/-- A stretch of a template without escapes and substitutions. -/
def templateRun? : Scan := fun cs =>
  let run := templateChars cs
  if run.1.isEmpty then none else some run

/-- The pattern of a regular expression, up to the `/` that is not in a class. -/
def regexChars (inClass : Bool) : List Char → List Char × List Char
  | [] => ([], [])
  | '\\' :: c :: cs =>
    if c == '\n' then ([], '\\' :: c :: cs)
    else
      let tail := regexChars inClass cs
      ('\\' :: c :: tail.1, tail.2)
  | c :: cs =>
    if c == '\n' || (c == '/' && !inClass) then ([], c :: cs)
    else
      let tail := regexChars (if c == '[' then true else if c == ']' then false else inClass) cs
      (c :: tail.1, tail.2)

/-- The pattern of a regular expression; it is not empty and a `/` follows. -/
def regexBody? : Scan := fun cs =>
  let run := regexChars false cs
  if run.1.isEmpty || run.2.head? != some '/' then none else some run

/-- The letters behind a regular expression. -/
def regexFlags? : Scan :=
  run? fun c => 'a' ≤ c && c ≤ 'z'

/-! ## Markup -/

/-- Text between tags. A run of blanks that starts with a line break is no text. -/
def markupText? : Scan := fun cs =>
  let inside := fun c => c != '<' && c != '>' && c != '{' && c != '}' && c != '&'
  let text := cs.takeWhile inside
  let layout := text.all isAsciiBlank && text.head? == some '\n'
  if text.isEmpty || layout then none else some (text, cs.dropWhile inside)

/-- A character reference such as the one for an ampersand. -/
def characterReference? : Scan
  | '&' :: '#' :: x :: cs =>
    let hex := x == 'x' || x == 'X'
    let body := if hex then cs.takeWhile isHexDigit else (x :: cs).takeWhile Char.isDigit
    let rest := if hex then cs.dropWhile isHexDigit else (x :: cs).dropWhile Char.isDigit
    if body.isEmpty || (if hex then 6 else 5) < body.length then none
    else
      match rest with
      | ';' :: rest => some ('&' :: '#' :: (if hex then [x] else []) ++ body ++ [';'], rest)
      | _ => none
  | '&' :: cs =>
    let name := cs.takeWhile Char.isAlpha
    if name.isEmpty || 30 < name.length then none
    else
      match cs.dropWhile Char.isAlpha with
      | ';' :: rest => some ('&' :: name ++ [';'], rest)
      | _ => none
  | _ => none

/-- The name of a tag or an attribute: a word, or ASCII letters and digits with hyphens. -/
def markupName? : Scan := fun cs =>
  let inside := fun (c : Char) => c.isAlphanum || c == '_' || c == '$'
  let head := cs.takeWhile inside
  let hyphened := cs.takeWhile fun c => inside c || c == '-'
  match head, cs.drop head.length with
  | c :: _, '-' :: _ =>
    if c.isDigit then none else some (hyphened, cs.dropWhile fun c => inside c || c == '-')
  | _, _ => word? cs

/-- The characters of an attribute value up to its quote or a character reference. -/
def attributeChars (quote : Char) : List Char → List Char × List Char
  | [] => ([], [])
  | '&' :: c :: cs =>
    if c == '#' || c.isAlpha then ([], '&' :: c :: cs)
    else
      let tail := attributeChars quote (c :: cs)
      ('&' :: tail.1, tail.2)
  | c :: cs =>
    if c == quote then ([], c :: cs)
    else
      let tail := attributeChars quote cs
      (c :: tail.1, tail.2)

/-- A stretch of an attribute value without character references. -/
def attributeRun? (quote : Char) : Scan := fun cs =>
  let run := attributeChars quote cs
  if run.1.isEmpty then none else some run

/-! ## Punctuators -/

/-- The given characters stand at the front. -/
def exactly? (text : List Char) : Scan := fun cs =>
  if text.isPrefixOf cs then some (text, cs.drop text.length) else none

/-- The punctuators that can stand after an operand, longer ones before their beginnings. -/
def punctuators : List (List Char) :=
  [">>>=", "===", "!==", "**=", "<<=", ">>=", ">>>", "&&=", "||=", "??=", "...", "=>", "==", "!=",
    "<=", ">=", "&&", "||", "??", "?.", "++", "--", "+=", "-=", "*=", "/=", "%=", "&=", "|=", "^=",
    "<<", ">>", "**", "+", "-", "*", "/", "%", "&", "|", "^", "~", "!", "<", ">", "=", "?", ":",
    ".", ",", ";"].map String.toList

/-- The longest punctuator at the front. -/
def punctuator? : Scan := fun cs =>
  (punctuators.find? (·.isPrefixOf cs)).map fun text => (text, cs.drop text.length)

/-- The longest punctuator at the front is one of the given ones. -/
def oneOf? (texts : List String) : Scan := fun cs =>
  (punctuator? cs).filter fun found => texts.contains (String.ofList found.1)

/-- The word at the front is one of the given ones. -/
def wordAmong? (texts : List String) : Scan := fun cs =>
  (word? cs).filter fun found => texts.contains (String.ofList found.1)

/-- The word at the front is none of the given ones. -/
def wordExcept? (texts : List String) : Scan := fun cs =>
  (word? cs).filter fun found => !texts.contains (String.ofList found.1)

/-- The question mark of a conditional expression: no `??`, and no `?.` but before a digit. -/
def questionMark? : Scan
  | '?' :: '?' :: _ => none
  | '?' :: '.' :: c :: cs => if c.isDigit then some (['?'], '.' :: c :: cs) else none
  | '?' :: cs => some (['?'], cs)
  | _ => none

/-- A line that names an interpreter. -/
def interpreterLine? : Scan
  | '#' :: '!' :: cs => some ('#' :: '!' :: cs.takeWhile (· != '\n'), cs.dropWhile (· != '\n'))
  | _ => none

end Stepflow.TypeScript
