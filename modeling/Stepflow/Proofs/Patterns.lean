import Mathlib
import Stepflow.Flow.OfArena
import Stepflow.Proofs.LineEnds
import Stepflow.Proofs.Segments

/-!
# Scanners and patterns

The scanners that unify line ends, take away comment marks, read tags and measure indentations go
from one character to the next. Each of them does what a search for a pattern does: it takes the
leftmost match, and there the first alternative and as many repetitions as possible.

* `Pattern`: characters of a class, repetitions, sequences, alternatives and groups.
* `Pattern.ways`: all ways to match the front of a text, the preferred one first.
* `Pattern.replaceAll`, `Pattern.find?`: replacement of all matches, and the leftmost match.

Results:
* `Pattern.text_append_rest`: a match covers the front of the text.
* `Pattern.flatMap_waysMany`: a repetition that cannot stop early takes all it can.
* `Pattern.eq_replaceAll`: what agrees with a replacement at each match and elsewhere is it.
* `unifyLineEnds_eq_replaceAll`, `Comment.blankMarks_eq_replaceAll`: two scanners that replace.
* `Comment.keyed?_eq_captures`, `Comment.header?_eq_captures`: two scanners that read a tag.
* `Flow.bodyIndent_eq_find?`: a scanner that measures.
-/

namespace Stepflow.Text

/-- A pattern. `many` repeats characters of a class as often as possible, `either` prefers its first
    alternative, and `held` keeps what it matches as a group. -/
inductive Pattern where
  | one (p : Char → Bool)
  | many (p : Char → Bool)
  | both (x y : Pattern)
  | either (x y : Pattern)
  | held (x : Pattern)

/-- A match at the front of a text: what it covers, what its groups hold, and what is behind it. -/
structure Match where
  text : List Char
  groups : List (List Char)
  rest : List Char
  deriving DecidableEq, Repr

/-- Two matches, one behind the other. -/
def Match.append (m n : Match) : Match where
  text := m.text ++ n.text
  groups := m.groups ++ n.groups
  rest := n.rest

namespace Pattern

/-- At least one character of a class. -/
def oneOrMore (p : Char → Bool) : Pattern :=
  both (one p) (many p)

/-- The ways to match characters of a class, more of them first. -/
def waysMany (p : Char → Bool) : List Char → List Match
  | [] => [⟨[], [], []⟩]
  | c :: cs =>
    if p c then (waysMany p cs).map (Match.append ⟨[c], [], cs⟩) ++ [⟨[], [], c :: cs⟩]
    else [⟨[], [], c :: cs⟩]

/-- The ways to match the front of a text, the preferred one first. -/
def ways : Pattern → List Char → List Match
  | one p, cs =>
    match cs with
    | [] => []
    | c :: cs => if p c then [⟨[c], [], cs⟩] else []
  | many p, cs => waysMany p cs
  | both x y, cs => (x.ways cs).flatMap fun m => (y.ways m.rest).map m.append
  | either x y, cs => x.ways cs ++ y.ways cs
  | held x, cs => (x.ways cs).map fun m => { m with groups := m.text :: m.groups }

/-- The match at the front of a text. -/
def first? (x : Pattern) (cs : List Char) : Option Match :=
  (x.ways cs).head?

/-- What the groups hold in the match at the front of a text. -/
def captures? (x : Pattern) (cs : List Char) : Option (List (List Char)) :=
  (x.first? cs).map (·.groups)

/-- The leftmost match. -/
def find? (x : Pattern) : List Char → Option Match
  | [] => x.first? []
  | c :: cs => (x.first? (c :: cs)).or (find? x cs)

/-- Replaces all matches, from left to right. A match that covers nothing is none. -/
def replaceAll (x : Pattern) (new : List Char) : List Char → List Char
  | [] => []
  | c :: cs =>
    match x.first? (c :: cs) with
    | some m =>
      if m.rest.length ≤ cs.length then new ++ replaceAll x new m.rest
      else c :: replaceAll x new cs
    | none => c :: replaceAll x new cs
termination_by cs => cs.length

/-- What agrees with a replacement at each match, and elsewhere, is the replacement. -/
theorem eq_replaceAll {x : Pattern} {new : List Char} {f : List Char → List Char}
    (nil : f [] = [])
    (hit : ∀ {cs m}, x.first? cs = some m → m.rest.length < cs.length ∧ f cs = new ++ f m.rest)
    (miss : ∀ {c cs}, x.first? (c :: cs) = none → f (c :: cs) = c :: f cs) (cs : List Char) :
    f cs = x.replaceAll new cs := by
  fun_induction replaceAll x new cs with
  | case1 => exact nil
  | case2 c cs m hm hle ih => rw [(hit hm).2, ih]
  | case3 c cs m hm hgt =>
    have := (hit hm).1
    rw [List.length_cons] at this
    omega
  | case4 c cs hnone ih => rw [miss hnone, ih]

/-! ## Repetitions -/

theorem append_append (l m n : Match) : (l.append m).append n = l.append (m.append n) := by
  simp [Match.append]

/-- What a match covers and what is behind it make up the text. -/
theorem text_append_rest {x : Pattern} {cs : List Char} {m : Match} (h : m ∈ x.ways cs) :
    m.text ++ m.rest = cs := by
  induction x generalizing cs m with
  | one p =>
    cases cs with
    | nil => cases h
    | cons c cs =>
      rw [ways, List.mem_ite_nil_right, List.mem_singleton] at h
      obtain ⟨-, rfl⟩ := h
      rfl
  | many p =>
    rw [ways] at h
    induction cs generalizing m with
    | nil =>
      obtain rfl := List.mem_singleton.mp h
      rfl
    | cons c cs ih =>
      rw [waysMany] at h
      split at h
      · rw [List.mem_append, List.mem_map, List.mem_singleton] at h
        rcases h with ⟨n, hn, rfl⟩ | rfl
        · exact congrArg (c :: ·) (ih hn)
        · rfl
      · obtain rfl := List.mem_singleton.mp h
        rfl
  | both x y ihx ihy =>
    rw [ways, List.mem_flatMap] at h
    obtain ⟨n, hn, hm⟩ := h
    obtain ⟨k, hk, rfl⟩ := List.mem_map.mp hm
    calc (n.append k).text ++ (n.append k).rest = n.text ++ (k.text ++ k.rest) :=
          List.append_assoc ..
      _ = cs := by rw [ihy hk, ihx hn]
  | either x y ihx ihy =>
    rw [ways, List.mem_append] at h
    exact h.elim ihx ihy
  | held x ih =>
    rw [ways, List.mem_map] at h
    obtain ⟨n, hn, rfl⟩ := h
    exact ih (m := n) hn

theorem head?_waysMany (p : Char → Bool) (cs : List Char) :
    (waysMany p cs).head? = some ⟨cs.takeWhile p, [], cs.dropWhile p⟩ := by
  induction cs with
  | nil => rfl
  | cons c cs ih =>
    rw [waysMany]
    cases hc : p c with
    | false => simp [hc]
    | true => simp [hc, ih, Match.append]

/-- Where what follows cannot begin with a character of the class, a repetition takes all it can:
    no shorter way leads on. -/
theorem flatMap_waysMany {β : Type} {p : Char → Bool} {f : Match → List β}
    (h : ∀ m, m.rest.head?.any p = true → f m = []) (cs : List Char) :
    (waysMany p cs).flatMap f = f ⟨cs.takeWhile p, [], cs.dropWhile p⟩ := by
  induction cs generalizing f with
  | nil => exact List.flatMap_singleton f _
  | cons c cs ih =>
    rw [waysMany]
    cases hc : p c with
    | false => simp [hc]
    | true =>
      have hshort : f ⟨[], [], c :: cs⟩ = [] := h _ (by simpa using hc)
      have hlong := ih (f := f ∘ Match.append ⟨[c], [], cs⟩) fun m hm => h _ hm
      rw [if_pos rfl, List.flatMap_append, List.flatMap_map, List.flatMap_singleton, hshort,
        List.append_nil, List.takeWhile_cons_of_pos hc, List.dropWhile_cons_of_pos hc]
      exact hlong

theorem ways_oneOrMore_cons {p : Char → Bool} {c : Char} (h : p c = true) (cs : List Char) :
    (oneOrMore p).ways (c :: cs) = (waysMany p cs).map (Match.append ⟨[c], [], cs⟩) := by
  simp [oneOrMore, ways, h]

theorem ways_oneOrMore_of_not {p : Char → Bool} {cs : List Char} (h : cs.head?.any p = false) :
    (oneOrMore p).ways cs = [] := by
  cases cs with
  | nil => rfl
  | cons c cs =>
    have hc : p c = false := by simpa using h
    simp [oneOrMore, ways, hc]

theorem first?_oneOrMore (p : Char → Bool) (cs : List Char) :
    (oneOrMore p).first? cs =
      if cs.head?.any p then some ⟨cs.takeWhile p, [], cs.dropWhile p⟩ else none := by
  cases hp : cs.head?.any p with
  | false => simp [first?, ways_oneOrMore_of_not hp]
  | true =>
    obtain ⟨c, cs, rfl, hc⟩ : ∃ c ds, cs = c :: ds ∧ p c = true := by
      cases cs with
      | nil => cases hp
      | cons c cs => exact ⟨c, cs, rfl, by simpa using hp⟩
    rw [first?, ways_oneOrMore_cons hc, List.head?_map, head?_waysMany]
    simp [hc, Match.append]

theorem flatMap_ways_oneOrMore {β : Type} {p : Char → Bool} {f : Match → List β}
    (h : ∀ m, m.rest.head?.any p = true → f m = []) (cs : List Char) :
    ((oneOrMore p).ways cs).flatMap f =
      if cs.head?.any p then f ⟨cs.takeWhile p, [], cs.dropWhile p⟩ else [] := by
  cases cs with
  | nil => rfl
  | cons c cs =>
    cases hc : p c with
    | false => simp [ways_oneOrMore_of_not, hc]
    | true =>
      have hlong := flatMap_waysMany (f := f ∘ Match.append ⟨[c], [], cs⟩) (fun m hm => h _ hm) cs
      rw [ways_oneOrMore_cons hc, List.flatMap_map, if_pos (by simpa using hc),
        List.takeWhile_cons_of_pos hc, List.dropWhile_cons_of_pos hc]
      exact hlong

/-- A group of characters of a class, and behind it what cannot begin with one of them. -/
theorem ways_held_both {p : Char → Bool} {y : Pattern}
    (h : ∀ cs : List Char, cs.head?.any p = true → y.ways cs = []) (cs : List Char) :
    ((held (oneOrMore p)).both y).ways cs =
      if cs.head?.any p then
        (y.ways (cs.dropWhile p)).map
          (Match.append ⟨cs.takeWhile p, [cs.takeWhile p], cs.dropWhile p⟩)
      else [] := by
  rw [ways, ways, List.flatMap_map, flatMap_ways_oneOrMore]
  intro m hm
  rw [h m.rest hm, List.map_nil]

theorem ways_one_both_of_not {p : Char → Bool} {cs : List Char} (h : cs.head?.any p = false)
    (y : Pattern) : ((one p).both y).ways cs = [] := by
  cases cs with
  | nil => rfl
  | cons c cs =>
    have hc : p c = false := by simpa using h
    simp [ways, hc]

theorem ways_one_both {p : Char → Bool} {c : Char} (h : p c = true) (y : Pattern)
    (cs : List Char) :
    ((one p).both y).ways (c :: cs) = (y.ways cs).map (Match.append ⟨[c], [], cs⟩) := by
  simp [ways, h]

theorem ways_many_both_cons {p : Char → Bool} {c : Char} (h : p c = true) (y : Pattern)
    (cs : List Char) :
    ((many p).both y).ways (c :: cs) =
      (((many p).both y).ways cs).map (Match.append ⟨[c], [], cs⟩) ++ y.ways (c :: cs) := by
  have hnone : ∀ m : Match, Match.append ⟨[], [], c :: cs⟩ m = m := fun m => rfl
  simp only [ways]
  rw [waysMany, if_pos h, List.flatMap_append, List.flatMap_map, List.map_flatMap,
    List.flatMap_singleton, List.map_congr_left fun m _ => hnone m, List.map_id']
  congr 1
  refine List.flatMap_congr fun m _ => ?_
  rw [List.map_map]
  exact List.map_congr_left fun n _ => append_append _ m n

theorem ways_many_both_of_not {p : Char → Bool} {c : Char} (h : p c = false) (y : Pattern)
    (cs : List Char) : ((many p).both y).ways (c :: cs) = y.ways (c :: cs) := by
  have hnone : ∀ m : Match, Match.append ⟨[], [], c :: cs⟩ m = m := fun m => rfl
  simp only [ways]
  rw [waysMany, if_neg (by simp [h]), List.flatMap_singleton,
    List.map_congr_left fun m _ => hnone m, List.map_id']

end Pattern

/-! ## Line ends -/

open Pattern

/-- Blanks in front of a line break, and the line break. -/
def lineEnd : Pattern :=
  (many isBlank).both (one (· == '\n'))

theorem first?_lineEnd_of_not {c : Char} (h : isBlank c = false) (cs : List Char) :
    lineEnd.first? (c :: cs) = none := by
  have hne : c ≠ '\n' := by
    rintro rfl
    cases h
  rw [first?, lineEnd, ways_many_both_of_not h]
  simp [ways, hne]

theorem first?_lineEnd_cons {c : Char} (h : isBlank c = true) (cs : List Char) :
    lineEnd.first? (c :: cs) =
      ((lineEnd.first? cs).map (Match.append ⟨[c], [], cs⟩)).or
        (if c = '\n' then some ⟨['\n'], [], cs⟩ else none) := by
  rw [first?, first?, lineEnd, ways_many_both_cons h, List.head?_append, List.head?_map]
  by_cases hc : c = '\n' <;> simp [ways, hc]

/-- A match ends at a line break behind which no other one follows before something else. -/
theorem exists_of_first?_lineEnd {cs : List Char} {m : Match} (h : lineEnd.first? cs = some m) :
    ∃ w, (∀ c ∈ w, isBlank c = true) ∧ cs = w ++ '\n' :: m.rest ∧
      lineEnd.first? m.rest = none := by
  induction cs generalizing m with
  | nil => cases h
  | cons c cs ih =>
    cases hc : isBlank c with
    | false => simp [first?_lineEnd_of_not hc] at h
    | true =>
      rw [first?_lineEnd_cons hc] at h
      cases hrest : lineEnd.first? cs with
      | some n =>
        obtain ⟨w, hw, hcs, hnone⟩ := ih hrest
        obtain rfl : Match.append ⟨[c], [], cs⟩ n = m := by simpa [hrest] using h
        exact ⟨c :: w, List.forall_mem_cons.mpr ⟨hc, hw⟩, by rw [hcs]; rfl, hnone⟩
      | none =>
        rw [hrest, Option.map_none, Option.none_or] at h
        split at h
        · rename_i hbreak
          obtain rfl := Option.some.inj h
          exact ⟨[], nofun, by simp [hbreak], hrest⟩
        · cases h

/-- Where no match is near, the end of a run stays. -/
theorem unifyLineEndsFrom_of_first?_eq_none {cs : List Char} (h : lineEnd.first? cs = none)
    (run run' : List Char) :
    unifyLineEndsFrom (run ++ run') cs = run'.reverse ++ unifyLineEndsFrom run cs := by
  induction cs generalizing run with
  | nil => simp
  | cons c cs ih =>
    cases hc : isBlank c with
    | false => simp [unifyLineEndsFrom_of_not_blank hc]
    | true =>
      rw [first?_lineEnd_cons hc, Option.or_eq_none_iff, Option.map_eq_none_iff] at h
      have hne : c ≠ '\n' := by
        rintro rfl
        simp at h
      rw [unifyLineEndsFrom_blank hne hc, unifyLineEndsFrom_blank hne hc, ← List.cons_append,
        ih h.1]

/-- Unifying line ends replaces blanks in front of a line break by the line break. -/
theorem unifyLineEnds_eq_replaceAll (cs : List Char) :
    unifyLineEnds cs = lineEnd.replaceAll ['\n'] cs := by
  refine eq_replaceAll rfl (fun {cs m} hm => ?_) (fun {c cs} hnone => ?_) cs
  · obtain ⟨w, hw, rfl, hnone⟩ := exists_of_first?_lineEnd hm
    refine ⟨by simp; omega, ?_⟩
    have hblanks := unifyLineEnds_blanks hw [] m.rest
    rw [List.nil_append, List.nil_append] at hblanks
    rw [hblanks]
    exact unifyLineEndsFrom_of_first?_eq_none hnone [] ['\n']
  · cases hc : isBlank c with
    | false => exact unifyLineEndsFrom_of_not_blank hc [] cs
    | true =>
      rw [first?_lineEnd_cons hc, Option.or_eq_none_iff, Option.map_eq_none_iff] at hnone
      have hne : c ≠ '\n' := by
        rintro rfl
        simp at hnone
      exact (unifyLineEndsFrom_blank hne hc [] cs).trans
        (unifyLineEndsFrom_of_first?_eq_none hnone.1 [] [c])

end Stepflow.Text

namespace Stepflow.Comment

open Text Text.Pattern

/-! ## Comment marks -/

/-- One character, repeated, and behind it the other. -/
def markOf (a b : Char) : Pattern :=
  (oneOrMore (· == a)).both (oneOrMore (· == b))

/-- Slashes followed by stars, or stars followed by slashes. -/
def mark : Pattern :=
  (markOf '/' '*').either (markOf '*' '/')

theorem rest_first?_markOf {a b : Char} (hab : a ≠ b) (c : Char) (cs : List Char) :
    ((markOf a b).first? (c :: cs)).map (·.rest) =
      if c = a ∧ (cs.dropWhile (· == a)).head? = some b then
        some ((cs.dropWhile (· == a)).dropWhile (· == b))
      else none := by
  have hblocked : ∀ m : Match, (m.rest.head?.any (· == a)) = true →
      ((oneOrMore (· == b)).ways m.rest).map m.append = [] := by
    intro m hm
    rw [ways_oneOrMore_of_not, List.map_nil]
    cases hrest : m.rest.head? with
    | none => rfl
    | some d =>
      obtain rfl : d = a := by simpa [hrest] using hm
      simpa using hab
  rw [first?, markOf, ways, flatMap_ways_oneOrMore hblocked]
  by_cases hc : c = a
  · subst hc
    have hfirst := first?_oneOrMore (· == b) (cs.dropWhile (· == c))
    rw [first?] at hfirst
    by_cases hb : (cs.dropWhile (· == c)).head? = some b
    · simp [hfirst, hb, Match.append]
    · have hany : ((cs.dropWhile (· == c)).head?.any (· == b)) = false := by
        cases hd : (cs.dropWhile (· == c)).head? with
        | none => rfl
        | some d => simpa [hd] using hb
      simp [hfirst, hb, hany]
  · simp [hc]

theorem rest_first?_mark (c : Char) (cs : List Char) :
    (mark.first? (c :: cs)).map (·.rest) =
      (((markOf '/' '*').first? (c :: cs)).map (·.rest)).or
        (((markOf '*' '/').first? (c :: cs)).map (·.rest)) := by
  rw [first?, mark, ways, List.head?_append, Option.map_or]
  rfl

theorem length_rest_markOf {a b c : Char} (hab : a ≠ b) {cs rest : List Char}
    (h : ((markOf a b).first? (c :: cs)).map (·.rest) = some rest) :
    rest.length < (c :: cs).length := by
  rw [rest_first?_markOf hab, Option.ite_none_right_eq_some] at h
  obtain ⟨-, hrest⟩ := h
  have hlong := (List.dropWhile_suffix (l := cs) (· == a)).length_le
  have hshort := (List.dropWhile_suffix (l := cs.dropWhile (· == a)) (· == b)).length_le
  rw [← Option.some.inj hrest, List.length_cons]
  omega

theorem blankMarks_cons (c : Char) (cs : List Char) :
    blankMarks (c :: cs) =
      ((mark.first? (c :: cs)).map (·.rest)).elim (c :: blankMarks cs) (' ' :: blankMarks ·) := by
  rw [rest_first?_mark, rest_first?_markOf (by decide), rest_first?_markOf (by decide), blankMarks]
  by_cases hslash : c = '/'
  · subst hslash
    split_ifs <;> simp_all
  · by_cases hstar : c = '*'
    · subst hstar
      split_ifs <;> simp_all
    · simp [hslash, hstar]

/-- The marks of a comment are replaced by spaces. -/
theorem blankMarks_eq_replaceAll (cs : List Char) : blankMarks cs = mark.replaceAll [' '] cs := by
  refine eq_replaceAll (by rw [blankMarks]) (fun {cs m} hm => ?_) (fun {c cs} hnone => ?_) cs
  · cases cs with
    | nil => cases hm
    | cons c cs =>
      refine ⟨?_, by rw [blankMarks_cons, hm]; rfl⟩
      have hrest := rest_first?_mark c cs
      rw [hm, Option.map_some, eq_comm, Option.or_eq_some_iff] at hrest
      rcases hrest with hslash | ⟨-, hstar⟩
      · exact length_rest_markOf (by decide) hslash
      · exact length_rest_markOf (by decide) hstar
  · rw [blankMarks_cons, hnone]
    rfl

/-! ## Tags -/

/-- A word, a space, and a value that is kept as the word is. -/
def keyedBy (value : Pattern) : Pattern :=
  (held (oneOrMore fun c => !isBlank c)).both ((one (· == ' ')).both (held value))

/-- A word, a space, and the rest of the line. -/
def tag : Pattern :=
  keyedBy (many (· != '\n'))

/-- Characters, one behind the other, and a pattern behind them. -/
def behind (word : List Char) (x : Pattern) : Pattern :=
  word.foldr (fun c y => (one (· == c)).both y) x

/-- The word that introduces a tag of a chart, a word, and a rest of the line that is not empty. -/
def headerTag : Pattern :=
  behind headerMark (keyedBy (oneOrMore (· != '\n')))

theorem ways_space_both_of_ne {cs : List Char} (h : ∀ ds, cs ≠ ' ' :: ds) (y : Pattern) :
    ((one (· == ' ')).both y).ways cs = [] := by
  apply ways_one_both_of_not
  cases cs with
  | nil => rfl
  | cons c cs =>
    have hc : c ≠ ' ' := by
      rintro rfl
      exact h cs rfl
    simpa using hc

/-- On a single line, where a value reaches up to the end or is refused. -/
theorem captures?_keyedBy {value : Pattern} (accepts : String → Bool) {cs : List Char}
    (h : ∀ ds : List Char, '\n' ∉ ds →
      value.first? ds = if accepts (String.ofList ds) then some ⟨ds, [], []⟩ else none)
    (hcs : '\n' ∉ cs) :
    (keyedBy value).captures? cs =
      ((keyed? cs).filter fun (_, value) => accepts value).map
        fun (key, value) => [key.toList, value.toList] := by
  -- A space is not part of a word, so the word ends in front of it and nowhere else.
  have hblocked : ∀ cs : List Char, cs.head?.any (fun c => !isBlank c) = true →
      ((one (· == ' ')).both (held value)).ways cs = [] := by
    intro cs hcs
    refine ways_space_both_of_ne ?_ _
    rintro ds rfl
    cases hcs
  rw [captures?, first?, keyedBy, ways_held_both hblocked, keyed?]
  cases cs with
  | nil => rfl
  | cons c cs =>
    cases hc : isBlank c with
    | true => simp [hc]
    | false =>
      have hkey : ((c :: cs).takeWhile fun c => !isBlank c).isEmpty = false := by simp [hc]
      rw [if_pos (by simp [hc]), if_neg (by simp [hkey])]
      split
      · rename_i ds hds
        have hline : '\n' ∉ ds := fun hmem =>
          hcs ((List.dropWhile_suffix _).subset (hds ▸ List.mem_cons_of_mem _ hmem))
        have hvalue := h ds hline
        rw [first?] at hvalue
        rw [hds, ways_one_both (by rfl)]
        cases haccepts : accepts (String.ofList ds) <;>
          simp [ways, hvalue, haccepts, Match.append]
      · rename_i hnot
        rw [ways_space_both_of_ne hnot]
        rfl

theorem captures?_behind (word : List Char) (x : Pattern) (cs : List Char) :
    (behind word x).captures? cs =
      if word.isPrefixOf cs then x.captures? (cs.drop word.length) else none := by
  induction word generalizing cs with
  | nil => simp [behind]
  | cons c word ih =>
    have hbehind : behind (c :: word) x = (one (· == c)).both (behind word x) := rfl
    rw [captures?, first?, hbehind]
    cases cs with
    | nil => rfl
    | cons d cs =>
      by_cases hd : d = c
      · subst hd
        rw [ways_one_both (by simp)]
        have hrest := ih cs
        rw [captures?, first?] at hrest
        simp [hrest, Match.append, Function.comp_def, List.isPrefixOf]
      · rw [ways_one_both_of_not (by simpa using hd)]
        simp [List.isPrefixOf, Ne.symm hd]

theorem line_of_not_mem {cs : List Char} (h : '\n' ∉ cs) :
    cs.takeWhile (· != '\n') = cs ∧ cs.dropWhile (· != '\n') = [] := by
  have hne : ∀ c ∈ cs, (c != '\n') = true := fun c hc => by
    rw [bne_iff_ne]
    rintro rfl
    exact h hc
  exact ⟨List.takeWhile_eq_self_iff.mpr hne, List.dropWhile_eq_nil_iff.mpr hne⟩

theorem newline_not_mem_of_mem_segments {cs s : List Char} (h : s ∈ segments cs) : '\n' ∉ s :=
  fun hmem => absurd ((canonical_of_mem_segments h).spaces '\n' hmem isBlank_newline) (by decide)

/-- What a tag of a step says is what the groups of a pattern hold. -/
theorem keyed?_eq_captures {cs s : List Char} (h : s ∈ segments cs) :
    (keyed? s).map (fun (key, value) => [key.toList, value.toList]) = tag.captures? s := by
  have hall : ∀ ds : List Char, '\n' ∉ ds →
      (many (· != '\n')).first? ds = if true then some ⟨ds, [], []⟩ else none := by
    intro ds hds
    obtain ⟨htake, hdrop⟩ := line_of_not_mem hds
    rw [first?, ways, head?_waysMany, htake, hdrop, if_pos rfl]
  rw [tag, captures?_keyedBy (fun _ => true) hall (newline_not_mem_of_mem_segments h)]
  cases keyed? s <;> rfl

/-- What a tag of a chart says is what the groups of a pattern hold. -/
theorem header?_eq_captures {cs s : List Char} (h : s ∈ segments cs) :
    (header? s).map (fun (key, value) => [key.toList, value.toList]) = headerTag.captures? s := by
  have hall : ∀ ds : List Char, '\n' ∉ ds →
      (oneOrMore (· != '\n')).first? ds =
        if !(String.ofList ds).isEmpty then some ⟨ds, [], []⟩ else none := by
    intro ds hds
    obtain ⟨htake, hdrop⟩ := line_of_not_mem hds
    rw [first?_oneOrMore, htake, hdrop]
    cases ds with
    | nil => rfl
    | cons d ds =>
      have hd : d ≠ '\n' := fun hd => hds (by simp [hd])
      simp [hd]
  have hs := newline_not_mem_of_mem_segments h
  rw [headerTag, captures?_behind, header?]
  split
  · rw [captures?_keyedBy (!·.isEmpty) hall fun hmem => hs (List.mem_of_mem_drop hmem)]
  · rfl

end Stepflow.Comment

namespace Stepflow.Flow

open Text Text.Pattern

/-! ## Indentation -/

/-- A line break, spaces, and something behind them. -/
def indentedLine : Pattern :=
  (one (· == '\n')).both ((held (oneOrMore (· == ' '))).both (one fun c => !isBlank c))

theorem first?_indentedLine (c : Char) (cs : List Char) :
    (indentedLine.first? (c :: cs)).map (·.groups) =
      if c = '\n' ∧ cs.takeWhile (· == ' ') ≠ [] ∧
          ((cs.dropWhile (· == ' ')).head?.any fun c => !isBlank c) then
        some [cs.takeWhile (· == ' ')]
      else none := by
  have hblocked : ∀ cs : List Char, cs.head?.any (· == ' ') = true →
      (one fun c => !isBlank c).ways cs = [] := by
    intro cs hcs
    cases cs with
    | nil => rfl
    | cons d cs =>
      obtain rfl : d = ' ' := by simpa using hcs
      rfl
  have hspaces : cs.takeWhile (· == ' ') ≠ [] ↔ cs.head?.any (· == ' ') = true := by
    cases cs <;> simp [List.takeWhile_cons]
  by_cases hc : c = '\n'
  · rw [first?, indentedLine, ways_one_both (by simpa using hc), ways_held_both hblocked]
    simp only [hc, hspaces, true_and]
    cases hs : cs.head?.any (· == ' ') with
    | false => rfl
    | true =>
      cases hbehind : cs.dropWhile (· == ' ') with
      | nil => rfl
      | cons d ds => cases hd : isBlank d <;> simp [ways, hd, Match.append]
  · rw [first?, indentedLine, ways_one_both_of_not (by simpa using hc), if_neg (by simp [hc])]
    rfl

/-- The indentation of a body is the length of what the group holds in the leftmost match. -/
theorem bodyIndent_eq_find? (cs : List Char) :
    bodyIndent cs = (((indentedLine.find? cs).map (·.groups)).elim [] List.flatten).length := by
  induction cs with
  | nil => rfl
  | cons c cs ih =>
    rw [bodyIndent, find?, Option.map_or, first?_indentedLine]
    split_ifs with h
    · simp
    · exact ih

end Stepflow.Flow
