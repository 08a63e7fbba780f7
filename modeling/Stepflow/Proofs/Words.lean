import Mathlib.Data.List.Chain
import Mathlib.Data.List.DropRight
import Stepflow.Text.Blank

/-!
# Words

Pieces of a text at a character are those of the standard library, and the words of a text are its
pieces at blanks without the empty ones. A text of words with single spaces between them gives these
words again.

* `IsWord`: a piece of text that is not empty and has no blank in it.
* `Tidy`: a text that does not begin or end with a blank and has no blanks but single spaces.

Results:
* `splitOn_eq`, `words_eq`: the operations in terms of those on lists.
* `joinWith_splitOn`: the pieces of a text give it again.
* `words_joinWith`: words with spaces between them are read back.
* `takeWhile_joinWith`, `dropWhile_joinWith`: the first word, and what follows it.
* `head?_squeeze`, `getLast?_squeeze`: squeezing keeps the ends of a text that are not blank.
* `tidy_joinWith`: words with spaces between them are a tidy text.
* `squeeze_of_tidy`: a tidy text consists of words with spaces between them.
-/

namespace Stepflow.Text

/-! ## Pieces -/

theorem splitOn_eq (sep : Char) (cs : List Char) : splitOn sep cs = cs.splitOn sep := by
  induction cs with
  | nil => rfl
  | cons c cs ih =>
    rw [splitOn, List.splitOn_cons_eq_if_modifyHead, ih]
    by_cases hc : c = sep
    · simp [hc]
    · obtain ⟨piece, pieces, h⟩ := List.exists_cons_of_ne_nil (List.splitOn_ne_nil sep cs)
      simp [hc, h]

theorem exists_splitOn_eq_cons (sep : Char) (cs : List Char) :
    ∃ piece pieces, splitOn sep cs = piece :: pieces := by
  rw [splitOn_eq]
  exact List.exists_cons_of_ne_nil (List.splitOn_ne_nil sep cs)

theorem splitOn_of_not_mem {sep : Char} {cs : List Char} (h : sep ∉ cs) :
    splitOn sep cs = [cs] := by
  rw [splitOn_eq]
  exact List.splitOn_eq_singleton h

theorem splitOn_append {sep : Char} {cs : List Char} (h : sep ∉ cs) (rest : List Char) :
    splitOn sep (cs ++ sep :: rest) = cs :: splitOn sep rest := by
  rw [splitOn_eq, splitOn_eq]
  exact List.splitOn_append_cons_self_of_not_mem h rest

theorem splitOn_append_sep (sep : Char) (x y : List Char) :
    splitOn sep (x ++ sep :: y) = splitOn sep x ++ splitOn sep y := by
  simp only [splitOn_eq, List.splitOn_append_cons_self]

/-- There is one more piece than there are occurrences. -/
theorem length_splitOn (sep : Char) (cs : List Char) :
    (splitOn sep cs).length = cs.count sep + 1 := by
  fun_induction splitOn sep cs with
  | case1 => rfl
  | case2 cs ih => simp [ih]
  | case3 c cs hc hnil ih => simp [hnil] at ih
  | case4 c cs hc piece pieces hsplit ih =>
    rw [hsplit] at ih
    simp_all

/-- A piece has its characters from the text, and none of them is one at which the text was cut. -/
theorem mem_splitOnP {p : Char → Bool} {cs piece : List Char} (h : piece ∈ cs.splitOnP p) :
    ∀ c ∈ piece, p c = false ∧ c ∈ cs := by
  induction cs generalizing piece with
  | nil => simp_all [List.splitOnP_nil]
  | cons d cs ih =>
    have hlater : ∀ piece ∈ cs.splitOnP p, ∀ c ∈ piece, p c = false ∧ c ∈ d :: cs := by
      intro piece hpiece c hc
      exact ⟨(ih hpiece c hc).1, List.mem_cons_of_mem _ (ih hpiece c hc).2⟩
    obtain ⟨first, rest, hsplit⟩ := List.exists_cons_of_ne_nil (List.splitOnP_ne_nil p cs)
    rw [List.splitOnP_cons_eq_if_modifyHead] at h
    rw [hsplit] at h hlater
    cases hd : p d with
    | true =>
      rw [if_pos hd, List.mem_cons] at h
      rcases h with rfl | h
      · simp
      · exact hlater piece h
    | false =>
      rw [if_neg (by simp [hd]), List.modifyHead_cons, List.mem_cons] at h
      rcases h with rfl | h
      · rintro c hc
        rcases List.mem_cons.mp hc with rfl | hc
        · exact ⟨hd, List.mem_cons_self⟩
        · exact hlater first List.mem_cons_self c hc
      · exact hlater piece (List.mem_cons_of_mem _ h)

theorem not_mem_of_mem_splitOn {sep : Char} {cs piece : List Char} (h : piece ∈ splitOn sep cs) :
    sep ∉ piece := by
  rw [splitOn_eq, List.splitOn_eq_splitOnP] at h
  intro hsep
  simpa using (mem_splitOnP h sep hsep).1

/-- Two pieces are what stands in front of the only separator and behind it. -/
theorem splitOn_eq_pair_iff {sep : Char} {cs x y : List Char} :
    splitOn sep cs = [x, y] ↔ cs = x ++ sep :: y ∧ sep ∉ x ∧ sep ∉ y := by
  constructor
  · intro h
    have hjoin : [sep].intercalate (cs.splitOn sep) = cs := List.intercalate_splitOn sep
    rw [← splitOn_eq, h] at hjoin
    refine ⟨by simpa using hjoin.symm, ?_, ?_⟩
    · exact not_mem_of_mem_splitOn (h ▸ List.mem_cons_self)
    · exact not_mem_of_mem_splitOn (h ▸ List.mem_cons_of_mem x List.mem_cons_self)
  · rintro ⟨rfl, hx, hy⟩
    rw [splitOn_append hx, splitOn_of_not_mem hy]

/-- Characters in front belong to the first piece. -/
theorem splitOn_append_left {sep : Char} {x cs piece : List Char} {pieces : List (List Char)}
    (hx : sep ∉ x) (h : splitOn sep cs = piece :: pieces) :
    splitOn sep (x ++ cs) = (x ++ piece) :: pieces := by
  induction x with
  | nil => exact h
  | cons c x ih =>
    simp only [List.mem_cons, not_or] at hx
    rw [List.cons_append, splitOn, if_neg (Ne.symm hx.1), ih hx.2]
    rfl

/-! ## Ends -/

/-- What is to be removed at the end is removed, as far as the text in front of it. -/
theorem trimEndsOf_append {p : Char → Bool} {x m : List Char} (hne : x ≠ [])
    (hfront : ∀ c ∈ x.head?, p c = false) (hback : ∀ c ∈ x.getLast?, p c = false)
    (hm : ∀ c ∈ m, p c = true) : trimEndsOf p (x ++ m) = x := by
  have hdrop : (x ++ m).dropWhile p = x ++ m := by
    obtain ⟨c, x, rfl⟩ := List.exists_cons_of_ne_nil hne
    rw [List.cons_append, List.dropWhile_cons_of_neg]
    simp [hfront c rfl]
  have hback' : x.reverse.dropWhile p = x.reverse := by
    obtain ⟨c, y, hy⟩ := List.exists_cons_of_ne_nil (List.reverse_ne_nil_iff.mpr hne)
    have hc : p c = false := hback c (by rw [← List.head?_reverse, hy]; rfl)
    rw [hy, List.dropWhile_cons_of_neg]
    simp [hc]
  rw [trimEndsOf, hdrop, dropEndWhile, List.reverse_append,
    List.dropWhile_append_of_pos (by simpa using hm), hback', List.reverse_reverse]

theorem isInfix_trimEndsOf (p : Char → Bool) (cs : List Char) : trimEndsOf p cs <:+: cs :=
  (List.rdropWhile_prefix p _).isInfix.trans (List.dropWhile_suffix p).isInfix

theorem mem_of_mem_trimEndsOf {p : Char → Bool} {cs : List Char} {c : Char}
    (h : c ∈ trimEndsOf p cs) : c ∈ cs :=
  (isInfix_trimEndsOf p cs).mem h

/-- What is left does not begin with a character that was to be removed. -/
theorem head?_trimEndsOf {p : Char → Bool} {cs : List Char} :
    ∀ c ∈ (trimEndsOf p cs).head?, p c = false := by
  intro c hc
  obtain ⟨rest, hrest⟩ : trimEndsOf p cs <+: cs.dropWhile p := List.rdropWhile_prefix p _
  have hhead : (cs.dropWhile p).head? = some c := by
    rw [← hrest, List.head?_append, hc]
    rfl
  have hnot := List.head?_dropWhile_not p cs
  rw [hhead] at hnot
  exact hnot

/-- What is left does not end with a character that was to be removed. -/
theorem getLast?_trimEndsOf {p : Char → Bool} {cs : List Char} :
    ∀ c ∈ (trimEndsOf p cs).getLast?, p c = false := by
  intro c hc
  rw [trimEndsOf, dropEndWhile, List.getLast?_reverse] at hc
  have hnot := List.head?_dropWhile_not p (cs.dropWhile p).reverse
  rw [hc] at hnot
  exact hnot

/-! ## Words -/

/-- A piece of text that is not empty and has no blank in it. -/
def IsWord (w : List Char) : Prop :=
  w ≠ [] ∧ ∀ c ∈ w, isBlank c = false

-- a quantifier over characters is decided by trying all of them, so the text is looked at instead
instance (w : List Char) : Decidable (IsWord w) :=
  decidable_of_iff (w ≠ [] ∧ (w.all fun c => !isBlank c) = true) (by simp [IsWord])

theorem isBlank_space : isBlank ' ' = true := by
  decide

theorem wordsFrom_eq (run cs : List Char) :
    wordsFrom run cs =
      ((cs.splitOnP isBlank).modifyHead (run.reverse ++ ·)).filter (fun w => !w.isEmpty) := by
  induction cs generalizing run with
  | nil => cases run <;> simp [wordsFrom, List.splitOnP_nil]
  | cons c cs ih =>
    obtain ⟨piece, pieces, h⟩ := List.exists_cons_of_ne_nil (List.splitOnP_ne_nil isBlank cs)
    rw [wordsFrom, List.splitOnP_cons_eq_if_modifyHead]
    cases hc : isBlank c with
    | true => cases run <;> simp [ih, h]
    | false => simp [ih, h]

/-- The words of a text are its pieces at blanks, without the empty ones. -/
theorem words_eq (cs : List Char) :
    words cs = (cs.splitOnP isBlank).filter (fun w => !w.isEmpty) := by
  obtain ⟨piece, pieces, h⟩ := List.exists_cons_of_ne_nil (List.splitOnP_ne_nil isBlank cs)
  rw [words, wordsFrom_eq, h]
  rfl

/-- A blank divides the words of a text. -/
theorem words_append_blank {c : Char} (hc : isBlank c = true) (x y : List Char) :
    words (x ++ c :: y) = words x ++ words y := by
  rw [words_eq, words_eq, words_eq, List.splitOnP_append_cons x y hc, List.filter_append]

theorem words_of_isWord {w : List Char} (h : IsWord w) : words w = [w] := by
  rw [words_eq, List.splitOnP_eq_singleton h.2]
  simp [h.1]

theorem isWord_of_mem_words {cs w : List Char} (h : w ∈ words cs) : IsWord w := by
  rw [words_eq, List.mem_filter] at h
  exact ⟨by simpa using h.2, fun c hc => (mem_splitOnP h.1 c hc).1⟩

theorem infix_of_mem_wordsFrom {run cs w : List Char} (h : w ∈ wordsFrom run cs) :
    w <:+: run.reverse ++ cs := by
  fun_induction wordsFrom run cs with
  | case1 run hrun => simp at h
  | case2 run hrun => simp_all
  | case3 run c cs hc hrun ih => exact (ih h).trans ⟨run.reverse ++ [c], [], by simp⟩
  | case4 run c cs hc hrun ih =>
    rcases List.mem_cons.mp h with rfl | h
    · exact (List.prefix_append _ _).isInfix
    · exact (ih h).trans ⟨run.reverse ++ [c], [], by simp⟩
  | case5 run c cs hc ih => simpa using ih h

theorem infix_of_mem_words {cs w : List Char} (h : w ∈ words cs) : w <:+: cs :=
  infix_of_mem_wordsFrom h

theorem mem_of_mem_words {cs w : List Char} (h : w ∈ words cs) {c : Char} (hc : c ∈ w) :
    c ∈ cs :=
  (infix_of_mem_words h).mem hc

/-! ## First and last words -/

section Ends

variable {x w y cs : List Char}

theorem words_word_append (hw : IsWord w) (hy : ∀ c ∈ y.head?, isBlank c = true) :
    words (w ++ y) = w :: words y := by
  cases y with
  | nil =>
    rw [List.append_nil, words_of_isWord hw]
    rfl
  | cons c y =>
    have hc : isBlank c = true := hy c rfl
    rw [words_append_blank hc, words_of_isWord hw, ← List.nil_append (c :: y),
      words_append_blank hc]
    rfl

theorem words_append_word (hx : ∀ c ∈ x.getLast?, isBlank c = true) (hw : IsWord w) :
    words (x ++ w) = words x ++ [w] := by
  induction x using List.reverseRecOn with
  | nil =>
    rw [List.nil_append, words_of_isWord hw]
    rfl
  | append_singleton x c _ =>
    have hc : isBlank c = true := hx c (by simp)
    rw [List.append_assoc, List.singleton_append, words_append_blank hc, words_append_blank hc,
      words_of_isWord hw]
    simp [words, wordsFrom]

theorem exists_first_word (hne : cs ≠ []) (h : ∀ c ∈ cs.head?, isBlank c = false) :
    ∃ w y, cs = w ++ y ∧ IsWord w ∧ ∀ c ∈ y.head?, isBlank c = true := by
  refine ⟨cs.takeWhile (!isBlank ·), cs.dropWhile (!isBlank ·),
    List.takeWhile_append_dropWhile.symm, ⟨?_, ?_⟩, ?_⟩
  · obtain ⟨c, cs, rfl⟩ := List.exists_cons_of_ne_nil hne
    simp [h c rfl]
  · intro c hc
    simpa using List.mem_takeWhile_imp hc
  · intro c hc
    have hnot := List.head?_dropWhile_not (!isBlank ·) cs
    rw [hc] at hnot
    simpa using hnot

theorem exists_last_word (hne : cs ≠ []) (h : ∀ c ∈ cs.getLast?, isBlank c = false) :
    ∃ x w, cs = x ++ w ∧ (∀ c ∈ x.getLast?, isBlank c = true) ∧ IsWord w := by
  obtain ⟨w, y, hcs, hw, hy⟩ := exists_first_word (List.reverse_ne_nil_iff.mpr hne)
    (by simpa only [List.head?_reverse] using h)
  refine ⟨y.reverse, w.reverse, ?_, ?_, by simpa [IsWord] using hw⟩
  · rw [← List.reverse_append, ← hcs, List.reverse_reverse]
  · simpa only [List.getLast?_reverse] using hy

end Ends

/-! ## Words with spaces between them -/

variable {w : List Char} {ws : List (List Char)}

theorem joinWith_cons_cons (sep w v : List Char) (ws : List (List Char)) :
    joinWith sep (w :: v :: ws) = w ++ sep ++ joinWith sep (v :: ws) :=
  rfl

theorem joinWith_cons_flatMap (sep w : List Char) (ws : List (List Char)) :
    joinWith sep (w :: ws) = w ++ ws.flatMap (sep ++ ·) := by
  induction ws generalizing w with
  | nil => simp [joinWith]
  | cons v ws ih => simp [joinWith_cons_cons, ih]

theorem joinWith_append (sep : List Char) {vs : List (List Char)} (hvs : vs ≠ []) (hws : ws ≠ []) :
    joinWith sep (vs ++ ws) = joinWith sep vs ++ sep ++ joinWith sep ws := by
  obtain ⟨v, vs, rfl⟩ := List.exists_cons_of_ne_nil hvs
  obtain ⟨w, ws, rfl⟩ := List.exists_cons_of_ne_nil hws
  simp [joinWith_cons_flatMap]

theorem joinWith_splitOn (sep : Char) (cs : List Char) : joinWith [sep] (splitOn sep cs) = cs := by
  fun_induction splitOn sep cs with
  | case1 => rfl
  | case2 cs ih =>
    obtain ⟨piece, pieces, h⟩ := exists_splitOn_eq_cons sep cs
    rw [h] at ih ⊢
    rw [joinWith_cons_cons, ih]
    rfl
  | case3 c cs hc hnil ih =>
    obtain ⟨piece, pieces, h⟩ := exists_splitOn_eq_cons sep cs
    rw [hnil] at h
    cases h
  | case4 c cs hc piece pieces hsplit ih =>
    rw [hsplit, joinWith_cons_flatMap] at ih
    rw [joinWith_cons_flatMap, List.cons_append, ih]

/-- A text begins with its first piece. -/
theorem isPrefix_of_splitOn {sep : Char} {cs piece : List Char} {pieces : List (List Char)}
    (h : splitOn sep cs = piece :: pieces) : piece <+: cs := by
  rw [← joinWith_splitOn sep cs, h, joinWith_cons_flatMap]
  exact List.prefix_append _ _

/-- The words are those that were put together. -/
theorem words_joinWith (h : ∀ w ∈ ws, IsWord w) : words (joinWith [' '] ws) = ws := by
  induction ws with
  | nil => rfl
  | cons w ws ih =>
    have hw : IsWord w := h w (by simp)
    cases ws with
    | nil => exact words_of_isWord hw
    | cons v ws =>
      rw [joinWith_cons_cons, List.append_assoc, List.singleton_append,
        words_append_blank isBlank_space, words_of_isWord hw,
        ih fun u hu => h u (List.mem_cons_of_mem _ hu)]
      rfl

theorem squeeze_joinWith (h : ∀ w ∈ ws, IsWord w) :
    squeeze (joinWith [' '] ws) = joinWith [' '] ws := by
  rw [squeeze, words_joinWith h]

theorem joinWith_ne_nil (h : ∀ w ∈ ws, IsWord w) (hne : ws ≠ []) : joinWith [' '] ws ≠ [] := by
  intro hnil
  have hwords := words_joinWith h
  rw [hnil] at hwords
  exact hne hwords.symm

/-- The first word is followed by the end of the text, or by a space and the other words. -/
theorem joinWith_cons (w : List Char) (ws : List (List Char)) :
    joinWith [' '] (w :: ws) = w ++ if ws = [] then [] else ' ' :: joinWith [' '] ws := by
  cases ws with
  | nil => simp [joinWith]
  | cons v ws => simp [joinWith_cons_cons]

theorem takeWhile_append_space (hw : IsWord w) (rest : List Char) :
    (w ++ ' ' :: rest).takeWhile (!isBlank ·) = w := by
  rw [List.takeWhile_append_of_pos (by simpa using hw.2)]
  simp [isBlank_space]

theorem dropWhile_append_space (hw : IsWord w) (rest : List Char) :
    (w ++ ' ' :: rest).dropWhile (!isBlank ·) = ' ' :: rest := by
  rw [List.dropWhile_append_of_pos (by simpa using hw.2)]
  simp [isBlank_space]

theorem takeWhile_joinWith (hw : IsWord w) (ws : List (List Char)) :
    (joinWith [' '] (w :: ws)).takeWhile (!isBlank ·) = w := by
  rw [joinWith_cons]
  split_ifs
  · simpa using hw.2
  · exact takeWhile_append_space hw _

theorem dropWhile_joinWith (hw : IsWord w) (ws : List (List Char)) :
    (joinWith [' '] (w :: ws)).dropWhile (!isBlank ·) =
      if ws = [] then [] else ' ' :: joinWith [' '] ws := by
  rw [joinWith_cons]
  split_ifs
  · simpa using hw.2
  · exact dropWhile_append_space hw _

theorem head?_squeeze {cs : List Char} (h : ∀ c ∈ cs.head?, isBlank c = false) :
    (squeeze cs).head? = cs.head? := by
  by_cases hne : cs = []
  · rw [hne]
    rfl
  · obtain ⟨w, y, rfl, hw, hy⟩ := exists_first_word hne h
    rw [squeeze, words_word_append hw hy, joinWith_cons, List.head?_append_of_ne_nil _ hw.1,
      List.head?_append_of_ne_nil _ hw.1]

theorem getLast?_squeeze {cs : List Char} (h : ∀ c ∈ cs.getLast?, isBlank c = false) :
    (squeeze cs).getLast? = cs.getLast? := by
  by_cases hne : cs = []
  · rw [hne]
    rfl
  · obtain ⟨x, w, rfl, hx, hw⟩ := exists_last_word hne h
    have hlast : joinWith [' '] [w] = w := rfl
    rw [squeeze, words_append_word hx hw, List.getLast?_append_of_ne_nil _ hw.1]
    by_cases hnil : words x = []
    · rw [hnil, List.nil_append, hlast]
    · rw [joinWith_append [' '] hnil (by simp), hlast, List.getLast?_append_of_ne_nil _ hw.1]

/-- What holds of neighbours in words holds of them in the text, if it holds of spaces. -/
theorem isChain_joinWith {R : Char → Char → Prop} (hspace : ∀ c, R c ' ' ∧ R ' ' c)
    (h : ∀ w ∈ ws, w.IsChain R) : (joinWith [' '] ws).IsChain R := by
  induction ws with
  | nil => exact .nil
  | cons w ws ih =>
    obtain ⟨hw, hws⟩ := List.forall_mem_cons.mp h
    rw [joinWith_cons]
    split_ifs
    · rwa [List.append_nil]
    · rw [List.isChain_append, List.isChain_cons]
      refine ⟨hw, ⟨fun d _ => (hspace d).2, ih hws⟩, fun c _ d hd => ?_⟩
      obtain rfl : ' ' = d := by simpa using hd
      exact (hspace c).1

/-! ## Tidy texts -/

/-- The text is not empty, does not begin or end with a blank, and has no blanks but spaces, of
    which no two follow each other. -/
def Tidy (cs : List Char) : Prop :=
  cs ≠ [] ∧ (∀ c ∈ cs.head?, isBlank c = false) ∧ (∀ c ∈ cs.getLast?, isBlank c = false) ∧
    (∀ c ∈ cs, isBlank c = true → c = ' ') ∧
    cs.IsChain fun c d => isBlank c = true → isBlank d = false

instance (cs : List Char) : Decidable (Tidy cs) :=
  decidable_of_iff (cs ≠ [] ∧ (cs.head?.all fun c => !isBlank c) = true ∧
      (cs.getLast?.all fun c => !isBlank c) = true ∧
      (cs.all fun c => !isBlank c || c == ' ') = true ∧
      cs.IsChain fun c d => isBlank c = true → isBlank d = false)
    (by simp [Tidy, Option.all_eq_true, imp_iff_not_or])

theorem tidy_of_isWord (h : IsWord w) : Tidy w := by
  refine ⟨h.1, fun c hc => h.2 c (List.mem_of_mem_head? hc),
    fun c hc => h.2 c (List.mem_of_mem_getLast? hc), fun c hc hblank => ?_, ?_⟩
  · rw [h.2 c hc] at hblank
    cases hblank
  · refine (List.pairwise_of_forall_mem_list fun c hc d _ hblank => ?_).isChain
    rw [h.2 c hc] at hblank
    cases hblank

/-- Tidy texts with a space between them are a tidy text. -/
theorem Tidy.join {x y : List Char} (hx : Tidy x) (hy : Tidy y) : Tidy (x ++ ' ' :: y) := by
  obtain ⟨hx, hxfront, hxback, hxspaces, hxsingle⟩ := hx
  obtain ⟨hy, hyfront, hyback, hyspaces, hysingle⟩ := hy
  refine ⟨by simp, ?_, ?_, ?_, ?_⟩
  · rwa [List.head?_append_of_ne_nil _ hx]
  · rwa [List.getLast?_append_of_ne_nil _ (by simp), List.getLast?_cons_of_ne_nil hy]
  · intro c hc hblank
    rcases List.mem_append.mp hc with hc | hc
    · exact hxspaces c hc hblank
    · rcases List.mem_cons.mp hc with rfl | hc
      · rfl
      · exact hyspaces c hc hblank
  · rw [List.isChain_append, List.isChain_cons]
    refine ⟨hxsingle, ⟨fun d hd _ => hyfront d hd, hysingle⟩, fun c hc _ _ hblank => ?_⟩
    rw [hxback c hc] at hblank
    cases hblank

theorem tidy_joinWith (h : ∀ w ∈ ws, IsWord w) (hne : ws ≠ []) : Tidy (joinWith [' '] ws) := by
  induction ws with
  | nil => exact absurd rfl hne
  | cons w ws ih =>
    have hw : Tidy w := tidy_of_isWord (h w (by simp))
    cases ws with
    | nil => exact hw
    | cons v ws =>
      rw [joinWith_cons_cons, List.append_assoc]
      exact hw.join (ih (fun u hu => h u (List.mem_cons_of_mem _ hu)) (by simp))

/-- Behind a space, a tidy text goes on with a tidy text. -/
theorem Tidy.of_append {x y : List Char} (h : Tidy (x ++ ' ' :: y)) : Tidy y := by
  obtain ⟨-, -, hback, hspaces, hsingle⟩ := h
  have hne : y ≠ [] := by
    rintro rfl
    have hspace := hback ' ' (by simp)
    rw [isBlank_space] at hspace
    cases hspace
  have hchain := (List.isChain_append.mp hsingle).2.1
  rw [List.isChain_cons] at hchain
  refine ⟨hne, fun c hc => hchain.1 c hc isBlank_space, fun c hc => hback c ?_,
    fun c hc => hspaces c (by simp [hc]), hchain.2⟩
  rwa [List.getLast?_append_of_ne_nil _ (by simp), List.getLast?_cons_of_ne_nil hne]

/-- A tidy text consists of its words with single spaces between them. -/
theorem squeeze_of_tidy {cs : List Char} (h : Tidy cs) : squeeze cs = cs := by
  obtain ⟨w, y, hcs, hw, hy⟩ := exists_first_word h.1 h.2.1
  cases y with
  | nil =>
    rw [List.append_nil] at hcs
    rw [squeeze, hcs, words_of_isWord hw]
    rfl
  | cons c y =>
    have hc : isBlank c = true := hy c rfl
    obtain rfl : c = ' ' := h.2.2.2.1 c (by simp [hcs]) hc
    have htidy : Tidy y := (hcs ▸ h).of_append
    have ih : joinWith [' '] (words y) = y := squeeze_of_tidy htidy
    have hwords : words y ≠ [] := by
      intro hnil
      rw [hnil] at ih
      exact htidy.1 ih.symm
    rw [squeeze, hcs, words_append_blank hc, words_of_isWord hw, List.singleton_append,
      joinWith_cons, if_neg hwords, ih]
termination_by cs.length
decreasing_by
  simp [hcs]
  omega

/-- Every character of pieces with a text between them is one of a piece or of that text. -/
theorem mem_joinWith {sep : List Char} {pieces : List (List Char)} {c : Char}
    (h : c ∈ joinWith sep pieces) : c ∈ sep ∨ ∃ piece ∈ pieces, c ∈ piece := by
  fun_induction joinWith sep pieces with
  | case1 => simp at h
  | case2 piece => exact .inr ⟨piece, by simp, h⟩
  | case3 piece pieces _ ih =>
    rw [List.append_assoc, List.mem_append, List.mem_append] at h
    rcases h with h | h | h
    · exact .inr ⟨piece, by simp, h⟩
    · exact .inl h
    · rcases ih h with h | ⟨piece', hpiece', h⟩
      · exact .inl h
      · exact .inr ⟨piece', List.mem_cons_of_mem _ hpiece', h⟩

end Stepflow.Text
