import Mathlib
import Stepflow.Proofs.Headers

/-!
# Segments are in normal form

A segment is cleaned in three passes: its comment marks become blanks, its ends are trimmed, and
its words are put together with single spaces. No pass undoes what another has done, so that nothing
is left to be cleaned in the result.

* `Unjoined`: two characters that make no comment mark.
* `Canonical`: a text in which there is nothing to be cleaned.

Results:
* `unjoined_blankMarks`: one pass over a text leaves no comment mark, and makes no new one.
* `canonical_cleaned`, `cleaned_of_canonical`: cleaning gives canonical texts and keeps them.
* `segments_eq_singleton_iff`: the canonical texts are the comments that are their own segments.
* `segments_canonical`: how many segments a comment has, and what they look like.
-/

namespace Stepflow.Comment

open Text

/-! ## Comment marks -/

/-- The two characters, one behind the other, are not a comment mark. -/
def Unjoined (c d : Char) : Prop :=
  [c, d] ≠ ['/', '*'] ∧ [c, d] ≠ ['*', '/']

theorem isChain_unjoined_iff {cs : List Char} :
    cs.IsChain Unjoined ↔ ¬ ['/', '*'] <:+: cs ∧ ¬ ['*', '/'] <:+: cs := by
  rw [List.isChain_iff_forall_rel_of_append_cons_cons]
  constructor
  · intro h
    constructor
    · rintro ⟨x, y, hcs⟩
      have hcs : cs = x ++ '/' :: '*' :: y := by simp [← hcs]
      exact (h hcs).1 rfl
    · rintro ⟨x, y, hcs⟩
      have hcs : cs = x ++ '*' :: '/' :: y := by simp [← hcs]
      exact (h hcs).2 rfl
  · rintro ⟨hopen, hclose⟩ c d x y rfl
    constructor
    · intro heq
      exact hopen ⟨x, y, by simp [← heq]⟩
    · intro heq
      exact hclose ⟨x, y, by simp [← heq]⟩

theorem head?_blankMarks {cs : List Char} {c : Char} (h : c ∈ (blankMarks cs).head?) :
    c = ' ' ∨ cs.head? = some c := by
  cases cs with
  | nil => simp [blankMarks] at h
  | cons d cs =>
    rw [blankMarks] at h
    dsimp only at h
    split_ifs at h <;> simp_all [eq_comm]

/-- Where no mark begins, the second character of the mark does not follow. -/
theorem ne_of_mem_head?_blankMarks {a b c : Char} {cs : List Char} (hab : b ≠ a) (hb : b ≠ ' ')
    (hmark : (cs.dropWhile (· == a)).head? ≠ some b) (h : c ∈ (blankMarks cs).head?) : c ≠ b := by
  rintro rfl
  rcases head?_blankMarks h with hspace | hhead
  · exact hb hspace
  · obtain ⟨rest, rfl⟩ := List.head?_eq_some_iff.mp hhead
    rw [List.dropWhile_cons_of_neg (by simpa using hab)] at hmark
    exact hmark rfl

/-- One pass leaves no comment mark, and makes no new one of what stood around the old ones. -/
theorem unjoined_blankMarks (cs : List Char) : (blankMarks cs).IsChain Unjoined := by
  fun_induction blankMarks cs with
  | case1 => exact .nil
  | case2 cs behind hmark ih =>
    exact List.isChain_cons.mpr ⟨fun d _ => by simp [Unjoined], ih⟩
  | case3 cs behind hmark ih =>
    refine List.isChain_cons.mpr ⟨fun d hd => ?_, ih⟩
    have hne : d ≠ '*' := ne_of_mem_head?_blankMarks (by decide) (by decide) hmark hd
    simp [Unjoined, hne]
  | case4 cs behind hmark hslash ih =>
    exact List.isChain_cons.mpr ⟨fun d _ => by simp [Unjoined], ih⟩
  | case5 cs behind hmark hslash ih =>
    refine List.isChain_cons.mpr ⟨fun d hd => ?_, ih⟩
    have hne : d ≠ '/' := ne_of_mem_head?_blankMarks (by decide) (by decide) hmark hd
    simp [Unjoined, hne]
  | case6 c cs hslash hstar ih =>
    exact List.isChain_cons.mpr ⟨fun d _ => by simp [Unjoined, hslash, hstar], ih⟩

/-! ## Canonical texts -/

/-- There is nothing to be cleaned: no tag begins and no comment mark stands in the text, at its
    ends are neither slashes nor stars nor blanks, and all its blanks are single spaces. -/
structure Canonical (cs : List Char) : Prop where
  untagged : '@' ∉ cs
  unopened : ¬ ['/', '*'] <:+: cs
  unclosed : ¬ ['*', '/'] <:+: cs
  front : ∀ c ∈ cs.head?, c ≠ '/' ∧ c ≠ '*' ∧ isBlank c = false
  back : ∀ c ∈ cs.getLast?, c ≠ '/' ∧ c ≠ '*' ∧ isBlank c = false
  spaces : ∀ c ∈ cs, isBlank c = true → c = ' '
  single : ¬ [' ', ' '] <:+: cs

theorem isMargin_eq_false_iff {c : Char} :
    isMargin c = false ↔ c ≠ '/' ∧ c ≠ '*' ∧ isBlank c = false := by
  simp [isMargin, and_assoc]

theorem canonical_nil : Canonical [] := by
  constructor <;> simp

namespace Canonical

variable {cs : List Char}

theorem unmarked (h : Canonical cs) : Unmarked cs :=
  ⟨h.untagged, h.unopened, h.unclosed, fun hlast => (h.back _ hlast).1 rfl,
    fun hlast => (h.back _ hlast).2.1 rfl⟩

theorem tidy (h : Canonical cs) (hne : cs ≠ []) : Tidy cs := by
  refine ⟨hne, fun c hc => (h.front c hc).2.2, fun c hc => (h.back c hc).2.2, h.spaces, ?_⟩
  rw [List.isChain_iff_forall_rel_of_append_cons_cons]
  intro c d x y hcs hc
  obtain rfl : c = ' ' := h.spaces c (by simp [hcs]) hc
  by_contra hd
  obtain rfl : d = ' ' := h.spaces d (by simp [hcs]) (by simpa using hd)
  exact h.single ⟨x, y, by simp [hcs]⟩

/-- The parts of the definition, as the passes give them. -/
theorem of_tidy (htidy : Tidy cs) (huntagged : '@' ∉ cs) (hmarks : cs.IsChain Unjoined)
    (hfront : ∀ c ∈ cs.head?, isMargin c = false) (hback : ∀ c ∈ cs.getLast?, isMargin c = false) :
    Canonical cs := by
  obtain ⟨-, -, -, hspaces, hsingle⟩ := htidy
  obtain ⟨hopen, hclose⟩ := isChain_unjoined_iff.mp hmarks
  refine ⟨huntagged, hopen, hclose, fun c hc => isMargin_eq_false_iff.mp (hfront c hc),
    fun c hc => isMargin_eq_false_iff.mp (hback c hc), hspaces, ?_⟩
  rintro ⟨x, y, hxy⟩
  have hcs : cs = x ++ ' ' :: ' ' :: y := by simp [← hxy]
  have hspace := List.isChain_iff_forall_rel_of_append_cons_cons.mp hsingle hcs isBlank_space
  rw [isBlank_space] at hspace
  cases hspace

end Canonical

theorem not_mem_cleaned {cs : List Char} (h : '@' ∉ cs) : '@' ∉ cleaned cs := by
  intro hat
  rcases mem_joinWith hat with hat | ⟨w, hw, hat⟩
  · simp at hat
  · rcases mem_blankMarks (mem_of_mem_trimEndsOf (mem_of_mem_words hw hat)) with hat | hat
    · simp at hat
    · exact h hat

/-- The words of a text without comment marks have none, and spaces between them make none. -/
theorem unjoined_cleaned (cs : List Char) : (cleaned cs).IsChain Unjoined := by
  refine isChain_joinWith (fun c => by simp [Unjoined]) fun w hw => ?_
  have hword : w <:+: blankMarks cs := (infix_of_mem_words hw).trans (isInfix_trimEndsOf _ _)
  exact List.IsChain.infix (unjoined_blankMarks cs) hword

/-- Cleaning leaves nothing to be cleaned. -/
theorem canonical_cleaned {cs : List Char} (h : '@' ∉ cs) : Canonical (cleaned cs) := by
  have hblank : ∀ {c : Char}, isMargin c = false → isBlank c = false :=
    fun hc => (isMargin_eq_false_iff.mp hc).2.2
  by_cases hnil : words (trimEndsOf isMargin (blankMarks cs)) = []
  · rw [cleaned, squeeze, hnil]
    exact canonical_nil
  · refine .of_tidy (tidy_joinWith (fun w hw => isWord_of_mem_words hw) hnil) (not_mem_cleaned h)
      (unjoined_cleaned cs) ?_ ?_
    · rw [cleaned, head?_squeeze fun c hc => hblank (head?_trimEndsOf c hc)]
      exact head?_trimEndsOf
    · rw [cleaned, getLast?_squeeze fun c hc => hblank (getLast?_trimEndsOf c hc)]
      exact getLast?_trimEndsOf

theorem cleaned_of_canonical {cs : List Char} (h : Canonical cs) : cleaned cs = cs := by
  by_cases hne : cs = []
  · rw [hne, cleaned, blankMarks]
    rfl
  · have hmarks : blankMarks cs = cs := by
      have happend := blankMarks_append h.unmarked []
      rwa [List.append_nil, blankMarks, List.append_nil] at happend
    have htrim : trimEndsOf isMargin (cs ++ []) = cs :=
      trimEndsOf_append hne (fun c hc => isMargin_eq_false_iff.mpr (h.front c hc))
        (fun c hc => isMargin_eq_false_iff.mpr (h.back c hc)) (by simp)
    rw [List.append_nil] at htrim
    rw [cleaned, hmarks, htrim, squeeze_of_tidy (h.tidy hne)]

/-! ## Segments -/

theorem length_segments (cs : List Char) : (segments cs).length = cs.count '@' + 1 := by
  rw [segments, List.length_map, length_splitOn]

theorem canonical_of_mem_segments {cs s : List Char} (h : s ∈ segments cs) : Canonical s := by
  rw [segments, List.mem_map] at h
  obtain ⟨piece, hpiece, rfl⟩ := h
  exact canonical_cleaned (not_mem_of_mem_splitOn hpiece)

/-- The canonical texts are the comments that are their own segments. -/
theorem segments_eq_singleton_iff {cs : List Char} : segments cs = [cs] ↔ Canonical cs := by
  constructor
  · intro h
    apply canonical_of_mem_segments
    rw [h]
    exact List.mem_singleton_self cs
  · intro h
    rw [segments, splitOn_of_not_mem h.untagged, List.map_singleton, cleaned_of_canonical h]

/-- A comment has one more segment than it has an `@`. Each segment is canonical, and as a comment
    it is its own only segment. -/
theorem segments_canonical (cs : List Char) :
    (segments cs).length = cs.count '@' + 1 ∧
      ∀ s ∈ segments cs, Canonical s ∧ segments s = [s] := by
  refine ⟨length_segments cs, fun s hs => ?_⟩
  have hcanonical := canonical_of_mem_segments hs
  exact ⟨hcanonical, segments_eq_singleton_iff.mpr hcanonical⟩

/-- Comment marks that run into each other, with a slash and a star left over. -/
def crowdedMarks : List Char :=
  "/*/ a/*/b\t *  c*/*@//**// d //".toList

theorem crowdedMarks_canonical :
    "a /b * c".toList ∈ segments crowdedMarks ∧ (segments crowdedMarks).length = 2 ∧
      Canonical "a /b * c".toList ∧ segments "a /b * c".toList = ["a /b * c".toList] := by
  have hmem : "a /b * c".toList ∈ segments crowdedMarks := by
    have hsegments : segments crowdedMarks = ["a /b * c".toList, "d".toList] := by cbv
    rw [hsegments]
    exact List.mem_cons_self
  obtain ⟨hlength, hall⟩ := segments_canonical crowdedMarks
  exact ⟨hmem, hlength, hall _ hmem⟩

end Stepflow.Comment
