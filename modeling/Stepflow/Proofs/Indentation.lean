import Mathlib
import Stepflow.Flow.OfArena
import Stepflow.Proofs.Words

/-!
# Indentation of code

In a source, the code of a statement has the indentation of the statement in front of every line but
the first, which begins where the statement does. A step holds the code without it: the first line
is left alone, every other line loses the indentation once, and what a line has beyond it stays.

* `Text.Trimmed`: a text without blanks at its ends.
* `indented`: code with an indentation behind each of its line breaks.

Results:
* `Text.Trimmed.trim_append`: only what stands around such a text is trimmed.
* `splitOn_indented`, `map_dropIndent`: the lines of indented code, and what they lose.
* `reindent_indented`: indented code comes back as it was.
-/

namespace Stepflow

namespace Text

/-! ## Blanks around a text -/

/-- The text neither begins nor ends with a blank. -/
@[mk_iff]
structure Trimmed (cs : List Char) : Prop where
  head : ∀ c ∈ cs.head?, isBlank c = false
  last : ∀ c ∈ cs.getLast?, isBlank c = false

-- a quantifier over characters is decided by trying all of them, so the ends are looked at instead
instance (cs : List Char) : Decidable (Trimmed cs) :=
  decidable_of_iff
    ((cs.head?.all fun c => !isBlank c) = true ∧ (cs.getLast?.all fun c => !isBlank c) = true)
    (by simp [trimmed_iff, Option.all_eq_true])

theorem Trimmed.trim_append {cs front back : List Char} (h : Trimmed cs)
    (hfront : ∀ c ∈ front, isBlank c = true) (hback : ∀ c ∈ back, isBlank c = true) :
    trim (front ++ cs ++ back) = cs := by
  have hdrop : trim (front ++ cs ++ back) = trim (cs ++ back) := by
    rw [trim, trim, trimEndsOf, trimEndsOf, List.append_assoc, List.dropWhile_append_of_pos hfront]
  rw [hdrop, trim]
  by_cases hcs : cs = []
  · rw [hcs, List.nil_append, trimEndsOf, List.dropWhile_eq_nil_iff.mpr hback]
    rfl
  · exact trimEndsOf_append hcs h.head h.last hback

/-- The first piece of a text begins as the text does. -/
theorem Trimmed.head_of_splitOn {sep : Char} {cs piece : List Char} {pieces : List (List Char)}
    (h : Trimmed cs) (hsplit : splitOn sep cs = piece :: pieces) :
    ∀ c ∈ piece.head?, isBlank c = false := by
  intro c hc
  obtain ⟨rest, hrest⟩ := isPrefix_of_splitOn hsplit
  apply h.head c
  rw [← hrest, List.head?_append, hc]
  rfl

end Text

namespace Flow

open Text

/-! ## Indented code -/

/-- The code with an indentation behind each of its line breaks. -/
def indented (indent code : List Char) : List Char :=
  code.flatMap fun c => if c = '\n' then '\n' :: indent else [c]

section Indented

variable {indent code : List Char}

@[simp] theorem indented_nil (indent : List Char) : indented indent [] = [] :=
  rfl

@[simp] theorem indented_newline (indent code : List Char) :
    indented indent ('\n' :: code) = '\n' :: (indent ++ indented indent code) :=
  rfl

theorem indented_cons {c : Char} (hc : c ≠ '\n') (indent code : List Char) :
    indented indent (c :: code) = c :: indented indent code := by
  simp [indented, hc]

theorem indented_append_singleton {c : Char} (hc : c ≠ '\n') (indent code : List Char) :
    indented indent (code ++ [c]) = indented indent code ++ [c] := by
  simp [indented, hc]

theorem ne_newline {c : Char} (h : isBlank c = false) : c ≠ '\n' := by
  rintro rfl
  revert h
  decide

/-- Code that is trimmed neither begins nor ends with a line break, so it keeps its ends. -/
theorem trimmed_indented (h : Trimmed code) (indent : List Char) :
    Trimmed (indented indent code) := by
  constructor
  · cases code with
    | nil => simp
    | cons c code =>
      have hc := h.head c rfl
      rw [indented_cons (ne_newline hc)]
      simpa using hc
  · induction code using List.reverseRecOn with
    | nil => simp
    | append_singleton code c _ =>
      have hc := h.last c (by simp)
      rw [indented_append_singleton (ne_newline hc)]
      simpa using hc

/-- Every line but the first has the indentation in front of it. -/
theorem splitOn_indented (hindent : '\n' ∉ indent) {line : List Char} {lines : List (List Char)}
    (hcode : splitOn '\n' code = line :: lines) :
    splitOn '\n' (indented indent code) = line :: lines.map (indent ++ ·) := by
  induction code generalizing line lines with
  | nil =>
    obtain ⟨rfl, rfl⟩ := List.cons.inj hcode
    rfl
  | cons c code ih =>
    obtain ⟨first, rest, hsplit⟩ := exists_splitOn_eq_cons '\n' code
    by_cases hc : c = '\n'
    · rw [hc, splitOn, if_pos rfl, hsplit] at hcode
      obtain ⟨rfl, rfl⟩ := List.cons.inj hcode
      rw [hc, indented_newline, splitOn, if_pos rfl, splitOn_append_left hindent (ih hsplit)]
      rfl
    · rw [splitOn, if_neg hc, hsplit] at hcode
      obtain ⟨rfl, rfl⟩ := List.cons.inj hcode
      rw [indented_cons hc, splitOn, if_neg hc, ih hsplit]

end Indented

/-! ## Lines without an indentation -/

section DropIndent

variable {indent line : List Char}

theorem dropIndent_append (indent line : List Char) :
    dropIndent indent (indent ++ line) = line := by
  rw [dropIndent, if_pos (by simp), List.drop_left]

/-- A line that does not begin with a blank has no indentation to lose. -/
theorem dropIndent_of_head (hindent : ∀ c ∈ indent, isBlank c = true)
    (hline : ∀ c ∈ line.head?, isBlank c = false) : dropIndent indent line = line := by
  cases indent with
  | nil => exact dropIndent_append [] line
  | cons c indent =>
    have hnot : ¬ (c :: indent) <+: line := by
      rintro ⟨rest, rfl⟩
      have hc := hline c rfl
      rw [hindent c List.mem_cons_self] at hc
      cases hc
    rw [dropIndent, if_neg (by simpa using hnot)]

/-- The first line stays, and every other line loses the indentation once. -/
theorem map_dropIndent (hindent : ∀ c ∈ indent, isBlank c = true)
    (hline : ∀ c ∈ line.head?, isBlank c = false) (lines : List (List Char)) :
    (line :: lines.map (indent ++ ·)).map (dropIndent indent) = line :: lines := by
  have hothers : (lines.map (indent ++ ·)).map (dropIndent indent) = lines := by
    rw [List.map_map]
    exact (List.map_congr_left fun l _ => dropIndent_append indent l).trans (List.map_id lines)
  rw [List.map_cons, dropIndent_of_head hindent hline, hothers]

end DropIndent

/-- The code of a step that is not an edge. -/
theorem code_step {a : Arena} {n : Node} {id : Nat} (h : decision? a (subject n id) = none)
    (source : List Char) :
    (step a source n id).code = some (String.ofList (reindent
      (a.text source (assignment a (subject n id)).2) (n.indentation.getD "").toList)) := by
  simp only [step, h]
  rfl

/-- Code without blanks at its ends comes back from the text in which an indentation was put behind
    each of its line breaks, whatever blanks stand around that text. So its first line stays, and
    every other line loses the indentation once and keeps what it has beyond it. A step whose
    statement has that indentation and that text holds the code. -/
theorem reindent_indented {code indent front back : List Char} (hcode : Trimmed code)
    (hindent : ∀ c ∈ indent, isBlank c = true ∧ c ≠ '\n')
    (hfront : ∀ c ∈ front, isBlank c = true) (hback : ∀ c ∈ back, isBlank c = true) :
    reindent (front ++ indented indent code ++ back) indent = code ∧
    (∃ line lines,
      splitOn '\n' (trim (front ++ indented indent code ++ back)) =
        line :: lines.map (indent ++ ·) ∧
      splitOn '\n' (reindent (front ++ indented indent code ++ back) indent) = line :: lines) ∧
    ∀ (a : Arena) (source : List Char) (n : Node) (id : Nat),
      decision? a (subject n id) = none → (n.indentation.getD "").toList = indent →
      a.text source (assignment a (subject n id)).2 = front ++ indented indent code ++ back →
      (step a source n id).code = some (String.ofList code) := by
  obtain ⟨line, lines, hlines⟩ := exists_splitOn_eq_cons '\n' code
  have htrim : trim (front ++ indented indent code ++ back) = indented indent code :=
    (trimmed_indented hcode indent).trim_append hfront hback
  have hsplit : splitOn '\n' (indented indent code) = line :: lines.map (indent ++ ·) :=
    splitOn_indented (fun hmem => (hindent _ hmem).2 rfl) hlines
  have hdrop := map_dropIndent (fun c hc => (hindent c hc).1) (hcode.head_of_splitOn hlines) lines
  have hreindent : reindent (front ++ indented indent code ++ back) indent = code := by
    rw [reindent, htrim, hsplit, hdrop, ← hlines, joinWith_splitOn]
  refine ⟨hreindent, ⟨line, lines, ?_, ?_⟩, fun a source n id hdecision hn htext => ?_⟩
  · rw [htrim, hsplit]
  · rw [hreindent, hlines]
  · rw [code_step hdecision, htext, hn, hreindent]

/-- A call over several lines: one of them is empty, one has nothing but two spaces, and one begins
    with the indentation of the statement twice. -/
def spreadCall : List Char :=
  "call(\x7b\n\n        a: 1,\n  \n\x7d)".toList

/-- The call as it stands in a source, four spaces in. -/
def spreadCallSource : List Char :=
  " \ncall(\x7b\n    \n            a: 1,\n      \n    \x7d)\t\n".toList

/-- The node of that source. -/
def spreadCallNode : Node where
  kind := .other "CallExpression"
  span := { start := 0, stop := 47 }
  nodes := []
  fields := []
  comment := none
  indentation := some "    "

theorem spreadCall_reindented :
    reindent spreadCallSource (List.replicate 4 ' ') = spreadCall ∧
    (step ⟨#[spreadCallNode]⟩ spreadCallSource spreadCallNode 0).code =
      some (String.ofList spreadCall) := by
  have hcode : Trimmed spreadCall := by decide
  have hindent : ∀ c ∈ List.replicate 4 ' ', isBlank c = true ∧ c ≠ '\n' := by
    intro c hc
    rw [List.eq_of_mem_replicate hc]
    decide
  have hfront : ∀ c ∈ [' ', '\n'], isBlank c = true := List.all_eq_true.mp (by decide)
  have hback : ∀ c ∈ ['\t', '\n'], isBlank c = true := List.all_eq_true.mp (by decide)
  have hsource : [' ', '\n'] ++ indented (List.replicate 4 ' ') spreadCall ++ ['\t', '\n'] =
      spreadCallSource := by decide
  obtain ⟨hreindent, -, hstep⟩ := reindent_indented hcode hindent hfront hback
  rw [hsource] at hreindent hstep
  exact ⟨hreindent, hstep _ _ _ _ (by cbv) (by decide) (by cbv)⟩

end Flow

end Stepflow
