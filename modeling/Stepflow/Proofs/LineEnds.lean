import Mathlib
import Stepflow.Proofs.Validation

/-!
# Lines without layout at their ends

Whatever blanks stand in front of a line break, with further line breaks among them, a text has one
form in which there are none. A source is brought into that form before it is read, so what is
extracted does not depend on them.

* `Text.Unified`: no blank stands directly in front of a line break.
* `Text.crlf`: the text with a carriage return in front of every line break.

Results:
* `Text.unifyLineEnds_blanks`: blanks in front of a line break make no difference.
* `Text.unified_unifyLineEnds`, `Text.unifyLineEnds_eq_self_iff`: the unified texts are those that
  stay as they are.
* `Text.filter_unifyLineEnds`: only blanks are lost.
* `Source.extract_layout`: extraction does not see the layout in front of line breaks, and gives the
  same again on the text that it returns.
-/

namespace Stepflow

namespace Text

/-- No blank, and so no line break either, stands directly in front of a line break. -/
def Unified (cs : List Char) : Prop :=
  cs.IsChain fun c d => d = '\n' → isBlank c = false

instance (cs : List Char) : Decidable (Unified cs) :=
  inferInstanceAs (Decidable (cs.IsChain _))

/-- The text with a carriage return in front of every line break. -/
def crlf (cs : List Char) : List Char :=
  cs.flatMap fun c => if c = '\n' then ['\r', '\n'] else [c]

theorem isBlank_newline : isBlank '\n' = true := by
  decide

/-! ## One turn -/

@[simp] theorem unifyLineEndsFrom_nil (run : List Char) : unifyLineEndsFrom run [] = run.reverse :=
  rfl

@[simp] theorem unifyLineEndsFrom_newline (run cs : List Char) :
    unifyLineEndsFrom run ('\n' :: cs) = unifyLineEndsFrom ['\n'] cs :=
  rfl

theorem unifyLineEndsFrom_blank {c : Char} (hne : c ≠ '\n') (hc : isBlank c = true)
    (run cs : List Char) : unifyLineEndsFrom run (c :: cs) = unifyLineEndsFrom (c :: run) cs := by
  simp [unifyLineEndsFrom, hne, hc]

theorem unifyLineEndsFrom_of_not_blank {c : Char} (hc : isBlank c = false) (run cs : List Char) :
    unifyLineEndsFrom run (c :: cs) = run.reverse ++ c :: unifyLineEndsFrom [] cs := by
  have hne : c ≠ '\n' := by
    rintro rfl
    simp [isBlank_newline] at hc
  simp [unifyLineEndsFrom, hne, hc]

/-! ## Blanks in front of a line break -/

/-- A line break takes away the whole run of blanks in front of it. -/
theorem unifyLineEndsFrom_blanks {w : List Char} (hw : ∀ c ∈ w, isBlank c = true)
    (run v : List Char) :
    unifyLineEndsFrom run (w ++ '\n' :: v) = unifyLineEndsFrom ['\n'] v := by
  induction w generalizing run with
  | nil => rfl
  | cons c w ih =>
    have hrest : ∀ d ∈ w, isBlank d = true := fun d hd => hw d (by simp [hd])
    by_cases hne : c = '\n'
    · subst hne
      exact ih hrest ['\n']
    · rw [List.cons_append, unifyLineEndsFrom_blank hne (hw c (by simp))]
      exact ih hrest (c :: run)

/-- Texts that are treated alike behind every run are treated alike behind every text. -/
theorem unifyLineEndsFrom_append {x y : List Char}
    (h : ∀ run, unifyLineEndsFrom run x = unifyLineEndsFrom run y) (run u : List Char) :
    unifyLineEndsFrom run (u ++ x) = unifyLineEndsFrom run (u ++ y) := by
  induction u generalizing run with
  | nil => exact h run
  | cons c u ih => simp only [List.cons_append, unifyLineEndsFrom, ih]

theorem unifyLineEnds_blanks {w : List Char} (hw : ∀ c ∈ w, isBlank c = true) (u v : List Char) :
    unifyLineEnds (u ++ w ++ '\n' :: v) = unifyLineEnds (u ++ '\n' :: v) := by
  rw [List.append_assoc]
  apply unifyLineEndsFrom_append
  intro run
  rw [unifyLineEndsFrom_blanks hw, unifyLineEndsFrom_newline]

theorem unifyLineEnds_crlf (cs : List Char) : unifyLineEnds (crlf cs) = unifyLineEnds cs := by
  have hfrom : ∀ run, unifyLineEndsFrom run (crlf cs) = unifyLineEndsFrom run cs := by
    induction cs with
    | nil => intro run; rfl
    | cons c cs ih =>
      intro run
      by_cases hc : c = '\n'
      · subst hc
        have hreturn : crlf ('\n' :: cs) = ['\r'] ++ '\n' :: crlf cs := rfl
        have hblank : ∀ c ∈ ['\r'], isBlank c = true := List.forall_mem_singleton.mpr (by decide)
        rw [hreturn, unifyLineEndsFrom_blanks hblank, ih, unifyLineEndsFrom_newline]
      · have hkeep : crlf (c :: cs) = c :: crlf cs := by simp [crlf, hc]
        simp only [hkeep, unifyLineEndsFrom, ih]
  exact hfrom []

/-! ## Unified texts -/

theorem unified_of_not_mem_tail {cs : List Char} (h : '\n' ∉ cs.tail) : Unified cs := by
  induction cs with
  | nil => exact List.isChain_nil
  | cons c cs ih =>
    rw [List.tail_cons] at h
    rw [Unified, List.isChain_cons]
    refine ⟨?_, ih fun hmem => h (List.mem_of_mem_tail hmem)⟩
    rintro d hd rfl
    exact absurd (List.mem_of_mem_head? hd) h

/-- A run holds no line break but its first character, which is the last one of the list. -/
theorem unified_unifyLineEndsFrom {run : List Char} (hrun : '\n' ∉ run.dropLast)
    (cs : List Char) : Unified (unifyLineEndsFrom run cs) := by
  have hreverse : ∀ run : List Char, '\n' ∉ run.dropLast → Unified run.reverse := by
    intro run hrun
    apply unified_of_not_mem_tail
    rwa [List.tail_reverse, List.mem_reverse]
  induction cs generalizing run with
  | nil => exact hreverse run hrun
  | cons c cs ih =>
    by_cases hne : c = '\n'
    · subst hne
      rw [unifyLineEndsFrom_newline]
      exact ih (by simp)
    · cases hc : isBlank c with
      | true =>
        rw [unifyLineEndsFrom_blank hne hc]
        apply ih
        cases run with
        | nil => simp
        | cons d run => simpa [Ne.symm hne] using hrun
      | false =>
        rw [unifyLineEndsFrom_of_not_blank hc, Unified, List.isChain_append]
        refine ⟨hreverse run hrun, ?_, ?_⟩
        · rw [List.isChain_cons]
          exact ⟨fun _ _ _ => hc, ih (by simp)⟩
        · intro _ _ d hd hbreak
          rw [List.head?_cons, Option.mem_some_iff] at hd
          exact absurd (hd.trans hbreak) hne

theorem unified_unifyLineEnds (cs : List Char) : Unified (unifyLineEnds cs) :=
  unified_unifyLineEndsFrom (by simp) cs

/-- Behind a run of blanks, a text stays as it is if the whole is unified. -/
theorem unifyLineEndsFrom_of_unified {run cs : List Char} (hrun : ∀ c ∈ run, isBlank c = true)
    (h : Unified (run.reverse ++ cs)) : unifyLineEndsFrom run cs = run.reverse ++ cs := by
  induction cs generalizing run with
  | nil => simp
  | cons c cs ih =>
    by_cases hne : c = '\n'
    · -- A run in front of the line break would be a blank in front of it.
      subst hne
      have hnil : run = [] := by
        cases run with
        | nil => rfl
        | cons d run =>
          have hd := (List.isChain_append.mp h).2.2 d (by simp) '\n' (by simp) rfl
          simp [hrun d (by simp)] at hd
      subst hnil
      exact ih (by simp [isBlank_newline]) h
    · cases hc : isBlank c with
      | true =>
        rw [unifyLineEndsFrom_blank hne hc, ih (by simpa [hc] using hrun) (by simpa using h)]
        simp
      | false =>
        have htail : Unified ([].reverse ++ cs) :=
          (List.isChain_append.mp h).2.1.tail
        rw [unifyLineEndsFrom_of_not_blank hc, ih (by simp) htail]
        simp

theorem unifyLineEnds_eq_self_iff (cs : List Char) : unifyLineEnds cs = cs ↔ Unified cs := by
  constructor
  · intro h
    rw [← h]
    exact unified_unifyLineEnds cs
  · intro h
    exact unifyLineEndsFrom_of_unified (by simp) h

theorem unifyLineEnds_unifyLineEnds (cs : List Char) :
    unifyLineEnds (unifyLineEnds cs) = unifyLineEnds cs :=
  (unifyLineEnds_eq_self_iff _).mpr (unified_unifyLineEnds cs)

/-! ## What is kept -/

theorem filter_unifyLineEndsFrom {run : List Char} (hrun : ∀ c ∈ run, isBlank c = true)
    (cs : List Char) :
    (unifyLineEndsFrom run cs).filter (!isBlank ·) = cs.filter (!isBlank ·) := by
  induction cs generalizing run with
  | nil => simpa using hrun
  | cons c cs ih =>
    by_cases hne : c = '\n'
    · subst hne
      rw [unifyLineEndsFrom_newline, ih (by simp [isBlank_newline])]
      simp [isBlank_newline]
    · cases hc : isBlank c with
      | true =>
        rw [unifyLineEndsFrom_blank hne hc, ih (by simpa [hc] using hrun)]
        simp [hc]
      | false =>
        have hlost : run.reverse.filter (!isBlank ·) = [] := by simpa using hrun
        rw [unifyLineEndsFrom_of_not_blank hc, List.filter_append, hlost]
        simp [hc, ih]

/-- The characters that are no blanks are kept, in their order. -/
theorem filter_unifyLineEnds (cs : List Char) :
    (unifyLineEnds cs).filter (!isBlank ·) = cs.filter (!isBlank ·) :=
  filter_unifyLineEndsFrom (by simp) cs

end Text

/-! ## Extraction -/

namespace Source

open Text

/-- Extraction sees a source through its unified text only. -/
theorem extract_congr (reader : Reader) {source source' : String}
    (h : unifyLineEnds source.toList = unifyLineEnds source'.toList) :
    extract reader source = extract reader source' := by
  unfold extract
  rw [h]

theorem text_of_extract {reader : Reader} {source : String} {e : Extract}
    (h : extract reader source = .ok e) : e.text = String.ofList (unifyLineEnds source.toList) := by
  obtain ⟨t, -, -, rfl⟩ := extract_eq_ok_iff.mp h
  rfl

/-- Blanks in front of a line break, with or without line breaks among them, make no difference to
    the unified text. It has no blank in front of a line break, is the text itself exactly if that
    has none either, and otherwise lacks nothing but blanks. So a source gives the same result when
    blanks are added in front of a line break, and when all its lines end in a carriage return and a
    line break; and the text that is returned gives the same charts and the same text again. -/
theorem extract_layout (reader : Reader) :
    (∀ u w v : List Char, (∀ c ∈ w, isBlank c = true) →
      unifyLineEnds (u ++ w ++ '\n' :: v) = unifyLineEnds (u ++ '\n' :: v) ∧
      extract reader (String.ofList (u ++ w ++ '\n' :: v)) =
        extract reader (String.ofList (u ++ '\n' :: v))) ∧
    (∀ cs, Unified (unifyLineEnds cs) ∧ (unifyLineEnds cs = cs ↔ Unified cs) ∧
      unifyLineEnds (unifyLineEnds cs) = unifyLineEnds cs ∧
      (unifyLineEnds cs).filter (!isBlank ·) = cs.filter (!isBlank ·)) ∧
    (∀ source : String,
      extract reader (String.ofList (crlf source.toList)) = extract reader source) ∧
    ∀ (source : String) (e : Extract), extract reader source = .ok e →
      extract reader e.text = .ok e := by
  refine ⟨?_, ?_, ?_, ?_⟩
  · intro u w v hw
    have hunify := unifyLineEnds_blanks hw u v
    refine ⟨hunify, extract_congr reader ?_⟩
    rw [String.toList_ofList, String.toList_ofList, hunify]
  · intro cs
    exact ⟨unified_unifyLineEnds cs, unifyLineEnds_eq_self_iff cs, unifyLineEnds_unifyLineEnds cs,
      filter_unifyLineEnds cs⟩
  · intro source
    apply extract_congr
    rw [String.toList_ofList, unifyLineEnds_crlf]
  · intro source e h
    rw [← h]
    apply extract_congr
    rw [text_of_extract h, String.toList_ofList, unifyLineEnds_unifyLineEnds]

/-- The tree of a text of two lines. -/
def twoLines : Tree where
  kind := .module
  span := { start := 1, stop := 7 }
  fields := [(.body, .list [.leaf .expressionStatement { start := 1, stop := 2 },
    .leaf .expressionStatement { start := 5, stop := 6 }])]

/-- A tabulator, an empty line and a no-break space between two lines are not seen, and neither are
    carriage returns. The indentation of the second line stays. -/
theorem twoLines_layout :
    (∀ c ∈ ['\t', '\r', '\n', '\u00a0'], isBlank c = true) ∧
    unifyLineEnds ("a".toList ++ ['\t', '\r', '\n', '\u00a0'] ++ '\n' :: "  b\n".toList) =
      "a\n  b\n".toList ∧
    extract (fun _ _ => .ok twoLines) (String.ofList (crlf "a\n  b\n".toList)) =
      .ok { charts := [], text := "a\n  b\n" } ∧
    extract (fun _ _ => .ok twoLines) "a\n  b\n" = .ok { charts := [], text := "a\n  b\n" } := by
  have hw : ∀ c ∈ ['\t', '\r', '\n', '\u00a0'], isBlank c = true := by
    simp [isBlank, blankRanges]
  obtain ⟨hblanks, htexts, hreturns, hagain⟩ := extract_layout fun _ _ => .ok twoLines
  have hplain : extract (fun _ _ => .ok twoLines) "a \n  b\n" =
      .ok { charts := [], text := "a\n  b\n" } := by cbv
  have htext := hagain _ _ hplain
  refine ⟨hw, ?_, ?_, htext⟩
  · rw [(hblanks _ _ _ hw).1]
    exact (htexts _).2.1.mpr (by decide)
  · exact (hreturns "a\n  b\n").trans htext

end Source

end Stepflow
