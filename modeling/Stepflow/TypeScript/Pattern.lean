import Stepflow.Concrete
import Stepflow.TypeScript.Lexeme

/-!
# Patterns and their reading

A grammar is a value here: a pattern for every rule name. Reading a text by a pattern is one
function over all of them.

* `Cursor`: the unread text, its byte offset, and where the last token ended.
* `Pattern`: tokens, sequence, ordered choice, repetition, lookahead, nodes, references to rules,
  and left-recursive growth.
* `Pattern.read`: the nodes that a pattern finds at a cursor, with the cursor behind them. A choice
  takes its first alternative that fits; a repetition takes as much as it can.

Blanks and comments are skipped in front of a token only. So a cursor rests directly behind the last
token, which is where an implied semicolon is looked for.
-/

namespace Stepflow.TypeScript

open Stepflow.Text

/-! ## Cursors -/

/-- A place in a text: what is unread, how many bytes precede it, and where the last token ended. -/
structure Cursor where
  rest : List Char
  offset : Nat
  stop : Nat

namespace Cursor

/-- The cursor at the beginning of a text. -/
def start (text : List Char) : Cursor :=
  { rest := text, offset := 0, stop := 0 }

/-- The cursor behind the blanks and comments in front of it. -/
def trimmed (c : Cursor) : Cursor :=
  let front := skipTrivia c.rest c.offset
  { c with rest := front.1, offset := front.2 }

/-- The token at the cursor with its offset, and the cursor behind it. A token that is `glued` has
    no blanks in front. -/
def token? (c : Cursor) (glued : Bool) (scan : Scan) : Option (List Char × Nat × Cursor) :=
  let front := if glued then c else c.trimmed
  (scan front.rest).map fun found =>
    let stop := front.offset + byteLength found.1
    (found.1, front.offset, { rest := found.2, offset := stop, stop := stop })

/-- The place of an implied semicolon. A comment on the same line is passed first, so the semicolon
    may stand behind it. -/
def implied? (outlook : Outlook) (rest : List Char) (offset : Nat) : Option Cursor :=
  if impliesSemicolon outlook rest then some { rest := rest, offset := offset, stop := offset }
  else
    match _h : comment? (skipSpaces rest offset).1 with
    | none => none
    | some (text, after) => implied? outlook after ((skipSpaces rest offset).2 + byteLength text)
termination_by rest.length
decreasing_by
  have := comment?_length _h
  have := skipSpaces_length rest offset
  omega

end Cursor

/-! ## Patterns -/

/-- What a grammar looks for. `ρ` names the rules.

    * `token` reads a token and leaves no node, `leaf` makes it a node, `sign` one of punctuation,
      and `stray` a fault.
    * `both` is sequence, `either` ordered choice, `many` repetition.
    * `ahead` looks without reading: the item must fit, or must not. `starts` looks at the first
      character of the next token.
    * `node` gathers what it finds under a new node, `spelled` keeps the text of the node as well,
      `role` gives the found nodes their place in the parent.
    * `implied` is an implied semicolon.
    * `chain` reads a first node and lets it grow as long as it can; inside, `grow` makes the node
      the first child of a new one, and `held` asks for its kind. -/
inductive Pattern (ρ : Type) where
  | nothing
  | never
  | token (glued : Bool) (scan : Scan)
  | leaf (kind : String) (glued : Bool) (scan : Scan)
  | sign (scan : Scan)
  | stray (scan : Scan)
  | both (first second : Pattern ρ)
  | either (first second : Pattern ρ)
  | many (item : Pattern ρ)
  | ahead (wanted : Bool) (item : Pattern ρ)
  | starts (p : Char → Bool)
  | node (kind : String) (body : Pattern ρ)
  | spelled (kind : String) (body : Pattern ρ)
  | role (name : String) (body : Pattern ρ)
  | rule (name : ρ)
  | implied (outlook : Outlook)
  | chain (first step : Pattern ρ)
  | grow (kind : String) (side : Option String) (more : Pattern ρ)
  | held (kinds : List String)

/-- Nodes that were found, and the cursor behind them. -/
abbrev Found := List Concrete × Cursor

/-- A construct of the grammar. -/
def construct (kind : String) (start stop : Nat) (text : List Char) (children : List Concrete) :
    Concrete :=
  { kind := kind, standing := .named, role := none, start := start, stop := stop,
    text := String.ofList text, children := children }

/-- A stretch of the text that does not fit the grammar. -/
def fault (start stop : Nat) : Concrete :=
  { kind := "error", standing := .error, role := none, start := start, stop := stop, text := "",
    children := [] }

/-- Reads an item again and again, as long as it fits and moves on. `found` holds the nodes so far,
    the last one first. -/
def repeatedly (item : Cursor → Option Found) : Nat → List Concrete → Cursor → Found
  | 0, found, c => (found.reverse, c)
  | fuel + 1, found, c =>
    match item c with
    | none => (found.reverse, c)
    | some (nodes, next) =>
      if c.offset < next.offset then repeatedly item fuel (nodes.reverse ++ found) next
      else (found.reverse, c)

/-- Lets a node grow as long as a step fits. A step that does not move on is the last one. -/
def grown (step : Concrete → Cursor → Option Found) : Nat → Concrete → Cursor → Found
  | 0, n, c => ([n], c)
  | fuel + 1, n, c =>
    match step n c with
    | some ([next], after) =>
      if c.offset < after.offset then grown step fuel next after else ([next], after)
    | _ => ([n], c)

/-- The nodes that a pattern finds at a cursor. `holding` is the node that a chain lets grow, and
    the first argument bounds the nesting of patterns and the length of repetitions. -/
def Pattern.read {ρ : Type} (grammar : ρ → Pattern ρ) :
    Nat → Pattern ρ → Option Concrete → Cursor → Option Found
  | 0, _, _, _ => none
  | _ + 1, .nothing, _, c => some ([], c)
  | _ + 1, .never, _, _ => none
  | _ + 1, .token glued scan, _, c => (c.token? glued scan).map fun found => ([], found.2.2)
  | _ + 1, .leaf kind glued scan, _, c =>
    (c.token? glued scan).map fun found =>
      ([construct kind found.2.1 found.2.2.stop found.1 []], found.2.2)
  | _ + 1, .sign scan, _, c =>
    (c.token? false scan).map fun found =>
      let n := construct (String.ofList found.1) found.2.1 found.2.2.stop found.1 []
      ([{ n with standing := .punctuation, role := some "operator" }], found.2.2)
  | _ + 1, .stray scan, _, c =>
    (c.token? false scan).map fun found => ([fault found.2.1 found.2.2.stop], found.2.2)
  | fuel + 1, .both first second, holding, c =>
    match read grammar fuel first holding c with
    | none => none
    | some (front, middle) =>
      match read grammar fuel second holding middle with
      | none => none
      | some (back, after) => some (front ++ back, after)
  | fuel + 1, .either first second, holding, c =>
    match read grammar fuel first holding c with
    | some found => some found
    | none => read grammar fuel second holding c
  | fuel + 1, .many item, _, c => some (repeatedly (read grammar fuel item none) fuel [] c)
  | fuel + 1, .ahead wanted item, holding, c =>
    if (read grammar fuel item holding c).isSome == wanted then some ([], c) else none
  | _ + 1, .starts p, _, c =>
    match c.trimmed.rest with
    | ch :: _ => if p ch then some ([], c) else none
    | [] => none
  | fuel + 1, .node kind body, _, c =>
    (read grammar fuel body none c).map fun found =>
      ([construct kind c.trimmed.offset found.2.stop [] found.1], found.2)
  | fuel + 1, .spelled kind body, _, c =>
    (read grammar fuel body none c).map fun found =>
      let front := c.trimmed
      let text := slice front.rest 0 (found.2.stop - front.offset)
      ([construct kind front.offset found.2.stop text found.1], found.2)
  | fuel + 1, .role name body, _, c =>
    (read grammar fuel body none c).map fun found => (found.1.map (·.inRole name), found.2)
  | fuel + 1, .rule name, holding, c => read grammar fuel (grammar name) holding c
  | _ + 1, .implied outlook, _, c => (Cursor.implied? outlook c.rest c.offset).map fun c => ([], c)
  | fuel + 1, .chain first step, _, c =>
    match read grammar fuel first none c with
    | some ([n], next) => some (grown (fun n => read grammar fuel step (some n)) fuel n next)
    | _ => none
  | fuel + 1, .grow kind side more, holding, c =>
    match holding with
    | none => none
    | some n =>
      (read grammar fuel more none c).map fun found =>
        let n' := match side with
          | some name => n.inRole name
          | none => n
        ([construct kind n.start found.2.stop [] (n' :: found.1)], found.2)
  | _ + 1, .held kinds, holding, c =>
    match holding with
    | some n => if kinds.contains n.kind then some ([], c) else none
    | none => none

namespace Pattern

variable {ρ : Type}

/-- All patterns, one after the other. -/
def all (items : List (Pattern ρ)) : Pattern ρ :=
  items.foldr both nothing

/-- The first of the patterns that fits. -/
def any (items : List (Pattern ρ)) : Pattern ρ :=
  items.foldr either never

/-- The pattern, if it fits. -/
def opt (item : Pattern ρ) : Pattern ρ :=
  either item nothing

/-- One or more times. -/
def some1 (item : Pattern ρ) : Pattern ρ :=
  both item (many item)

/-- The given characters, behind blanks. -/
def tok (text : String) : Pattern ρ :=
  token false (exactly? text.toList)

/-- The given characters, directly behind what precedes them. -/
def glue (text : String) : Pattern ρ :=
  token true (exactly? text.toList)

/-- The given operator; no longer one stands there. -/
def oper (text : String) : Pattern ρ :=
  token false (oneOf? [text])

/-- The given word. -/
def kw (text : String) : Pattern ρ :=
  token false (wordAmong? [text])

/-- The pattern fits here; nothing is read. -/
def peek (item : Pattern ρ) : Pattern ρ :=
  ahead true item

/-- The pattern does not fit here; nothing is read. -/
def deny (item : Pattern ρ) : Pattern ρ :=
  ahead false item

/-- The next token starts with one of the given characters, and the pattern fits. -/
def lead (chars : List Char) (item : Pattern ρ) : Pattern ρ :=
  both (starts chars.contains) item

/-- Items with commas between them. -/
def commaList (item : Pattern ρ) : Pattern ρ :=
  both item (many (both (tok ",") item))

/-- Items with commas between them and perhaps one behind them. -/
def commaListClosed (item : Pattern ρ) : Pattern ρ :=
  both (commaList item) (opt (tok ","))

/-- Places with commas between them; each place may be empty. -/
def commaPlaces (item : Pattern ρ) : Pattern ρ :=
  both (opt item) (many (both (tok ",") (opt item)))

end Pattern

end Stepflow.TypeScript
