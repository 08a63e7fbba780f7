import Mathlib
import Stepflow.Comment.Tags
import Stepflow.Proofs.Words

/-!
# Tags are read as they are written

A comment is cut at every `@`, so the decoration in front of a tag stands at the end of the segment
of the tag before it. There it is removed, and what was written remains.

* `Unmarked`: a text that neither holds a tag or a comment mark nor ends in a part of one.
* `Writable`: a key and a value that can be written as a tag.
* `Displays`: tags with nothing but decoration around them.
* `blockComment`, `lineComment`: the two ways to write tags.
* `Tags.values`: what a list of tags gives for a key.
* `Tags.joined`, `Tags.joinedAll`: two values of a key as one, and all of them.
* `Tags.Records`: what was read has the keys of a list of tags, with all their values.

Results:
* `cleaned_tagText`: decoration behind a tag is removed, and nothing else.
* `keyed?_joinWith`, `header?_joinWith_eq_some_iff`: the tag that is read from words.
* `Tags.get?_add`, `Tags.get?_foldl_add`: what one tag does to the value of a key, and what tags do
  one after the other.
* `headers_written`: written tags are read back, in both ways to write them.
-/

namespace Stepflow.Comment

open Text

/-! ## Comment marks -/

theorem mem_blankMarks {cs : List Char} {c : Char} (h : c ∈ blankMarks cs) : c = ' ' ∨ c ∈ cs := by
  have hrest : ∀ (p q : Char → Bool) (cs : List Char), c ∈ (cs.dropWhile p).dropWhile q → c ∈ cs :=
    fun p q cs hc => (List.dropWhile_suffix p).mem ((List.dropWhile_suffix q).mem hc)
  fun_induction blankMarks cs with
  | case1 => simp at h
  | case2 cs behind hstar ih =>
    rcases List.mem_cons.mp h with h | h
    · exact .inl h
    · exact (ih h).imp_right fun hc => List.mem_cons_of_mem _ (hrest _ _ _ hc)
  | case3 cs behind hstar ih =>
    rcases List.mem_cons.mp h with h | h
    · exact .inr (h ▸ List.mem_cons_self)
    · exact (ih h).imp_right (List.mem_cons_of_mem _)
  | case4 cs hslash behind hback ih =>
    rcases List.mem_cons.mp h with h | h
    · exact .inl h
    · exact (ih h).imp_right fun hc => List.mem_cons_of_mem _ (hrest _ _ _ hc)
  | case5 cs hslash behind hback ih =>
    rcases List.mem_cons.mp h with h | h
    · exact .inr (h ▸ List.mem_cons_self)
    · exact (ih h).imp_right (List.mem_cons_of_mem _)
  | case6 d cs hslash hstar ih =>
    rcases List.mem_cons.mp h with h | h
    · exact .inr (h ▸ List.mem_cons_self)
    · exact (ih h).imp_right (List.mem_cons_of_mem _)

/-- The text holds neither an `@` nor a comment mark, and does not end in a slash or a star. -/
def Unmarked (cs : List Char) : Prop :=
  '@' ∉ cs ∧ ¬ ['/', '*'] <:+: cs ∧ ¬ ['*', '/'] <:+: cs ∧
    cs.getLast? ≠ some '/' ∧ cs.getLast? ≠ some '*'
  deriving Decidable

theorem Unmarked.of_cons {c : Char} {cs : List Char} (h : Unmarked (c :: cs)) : Unmarked cs := by
  obtain ⟨htag, hopen, hclose, hback⟩ := h
  refine ⟨fun hmem => htag (List.mem_cons_of_mem _ hmem), fun hin => hopen (List.infix_cons hin),
    fun hin => hclose (List.infix_cons hin), ?_⟩
  cases cs with
  | nil => simp
  | cons d cs => simpa using hback

/-- Behind a run of one character of a mark, a text without that mark does not go on with the
    other. -/
theorem head?_dropWhile_ne {a b : Char} {x : List Char} (hmark : ¬ [a, b] <:+: a :: x)
    (hback : (a :: x).getLast? ≠ some a) (y : List Char) :
    ((x ++ y).dropWhile (· == a)).head? ≠ some b := by
  induction x with
  | nil => simp at hback
  | cons d x ih =>
    by_cases hd : d = a
    · subst hd
      rw [List.cons_append, List.dropWhile_cons_of_pos (by simp)]
      apply ih
      · intro hin
        exact hmark (List.infix_cons hin)
      · simpa using hback
    · rw [List.cons_append, List.dropWhile_cons_of_neg (by simpa using hd)]
      intro hb
      simp only [List.head?_cons, Option.some.injEq] at hb
      subst hb
      exact hmark ⟨[], x, rfl⟩

/-- A text without marks stays as it is, and makes no mark together with what follows it. -/
theorem blankMarks_append {x : List Char} (h : Unmarked x) (y : List Char) :
    blankMarks (x ++ y) = x ++ blankMarks y := by
  induction x with
  | nil => rfl
  | cons c x ih =>
    obtain ⟨-, hopen, hclose, hback⟩ := id h
    rw [List.cons_append, blankMarks]
    dsimp only
    by_cases hslash : c = '/'
    · subst hslash
      have hnext := head?_dropWhile_ne hopen hback.1 y
      rw [if_pos rfl, if_neg hnext, ih h.of_cons, List.cons_append]
    · by_cases hstar : c = '*'
      · subst hstar
        have hnext := head?_dropWhile_ne hclose hback.2 y
        rw [if_neg hslash, if_pos rfl, if_neg hnext, ih h.of_cons, List.cons_append]
      · rw [if_neg hslash, if_neg hstar, ih h.of_cons, List.cons_append]

theorem isMargin_space : isMargin ' ' = true := by
  decide

theorem isMargin_of_isBlank {c : Char} (h : isBlank c = true) : isMargin c = true := by
  simp [isMargin, h]

theorem isMargin_blankMarks {m : List Char} (hm : ∀ c ∈ m, isMargin c = true) :
    ∀ c ∈ blankMarks m, isMargin c = true := by
  intro c hc
  rcases mem_blankMarks hc with rfl | hc
  · exact isMargin_space
  · exact hm c hc

theorem Unmarked.isMargin_eq {cs : List Char} (h : Unmarked cs) {c : Char} (hc : c ∈ cs.getLast?)
    (hblank : isBlank c = false) : isMargin c = false := by
  have hslash : c ≠ '/' := fun heq => h.2.2.2.1 (heq ▸ hc)
  have hstar : c ≠ '*' := fun heq => h.2.2.2.2 (heq ▸ hc)
  simp [isMargin, hslash, hstar, hblank]

/-! ## Segments -/

/-- The word that introduces a tag. -/
def markWord : List Char :=
  ['c', 'o', 'd', 'e', 'f', 'l', 'o', 'w']

theorem headerMark_eq : headerMark = markWord ++ [' '] :=
  rfl

theorem isWord_markWord : IsWord markWord := by
  simp [IsWord, markWord, isBlank, blankRanges]

/-- The text of a tag behind its `@`. -/
def tagText (tag : String × String) : List Char :=
  markWord ++ ' ' :: (tag.1.toList ++ ' ' :: tag.2.toList)

/-- The key is a word, the value is made of words with single spaces between them, and nothing in
    them counts as a tag or a comment mark. -/
structure Writable (tag : String × String) : Prop where
  key : IsWord tag.1.toList
  key_unmarked : Unmarked tag.1.toList
  value : ∃ ws ≠ [], (∀ w ∈ ws, IsWord w) ∧ tag.2.toList = joinWith [' '] ws
  value_unmarked : Unmarked tag.2.toList

/-- A value is made of words with single spaces between them if squeezing it changes nothing. -/
theorem writable_iff {tag : String × String} :
    Writable tag ↔ IsWord tag.1.toList ∧ Unmarked tag.1.toList ∧ tag.2 ≠ "" ∧
      squeeze tag.2.toList = tag.2.toList ∧ Unmarked tag.2.toList := by
  constructor
  · intro h
    obtain ⟨ws, hne, hws, hvalue⟩ := h.value
    refine ⟨h.key, h.key_unmarked, fun hempty => ?_, ?_, h.value_unmarked⟩
    · rw [hempty] at hvalue
      exact joinWith_ne_nil hws hne hvalue.symm
    · rw [hvalue, squeeze_joinWith hws]
  · rintro ⟨hkey, hkey', hne, hvalue, hvalue'⟩
    refine ⟨hkey, hkey', ⟨words tag.2.toList, fun hnil => hne ?_, ?_, hvalue.symm⟩, hvalue'⟩
    · rw [squeeze, hnil] at hvalue
      exact String.toList_eq_nil_iff.mp hvalue.symm
    · exact fun w hw => isWord_of_mem_words hw

instance (tag : String × String) : Decidable (Writable tag) :=
  decidable_of_iff _ writable_iff.symm

/-- The text of a tag as words. -/
theorem Writable.exists_words {tag : String × String} (h : Writable tag) :
    ∃ ws ≠ [], (∀ w ∈ ws, IsWord w) ∧ tag.2.toList = joinWith [' '] ws ∧
      tagText tag = joinWith [' '] (markWord :: tag.1.toList :: ws) := by
  obtain ⟨ws, hne, hws, hvalue⟩ := h.value
  refine ⟨ws, hne, hws, hvalue, ?_⟩
  rw [tagText, hvalue, joinWith_cons, if_neg (by simp), joinWith_cons, if_neg hne]

theorem head?_tagText (tag : String × String) : (tagText tag).head? = some 'c' :=
  rfl

theorem getLast?_tagText {tag : String × String} (h : tag.2.toList ≠ []) :
    (tagText tag).getLast? = tag.2.toList.getLast? := by
  rw [tagText, List.getLast?_append_of_ne_nil _ (by simp), List.getLast?_cons_of_ne_nil (by simp),
    List.getLast?_append_of_ne_nil _ (by simp), List.getLast?_cons_of_ne_nil h]

/-- A tag makes no comment mark together with what follows it. -/
theorem blankMarks_tagText {tag : String × String} (h : Writable tag) (m : List Char) :
    blankMarks (tagText tag ++ m) = tagText tag ++ blankMarks m := by
  have hmark : Unmarked (markWord ++ [' ']) := by decide
  have hspace : Unmarked [' '] := by decide
  have htext : ∀ y, tagText tag ++ y =
      (markWord ++ [' ']) ++ (tag.1.toList ++ ([' '] ++ (tag.2.toList ++ y))) := by
    simp [tagText]
  rw [htext, htext, blankMarks_append hmark, blankMarks_append h.key_unmarked,
    blankMarks_append hspace, blankMarks_append h.value_unmarked]

/-- Decoration behind a tag is removed, and nothing else. -/
theorem cleaned_tagText {tag : String × String} (h : Writable tag) {m : List Char}
    (hm : ∀ c ∈ m, isMargin c = true) : cleaned (tagText tag ++ m) = tagText tag := by
  obtain ⟨ws, hne, hws, hvalue, htext⟩ := h.exists_words
  have hfront : ∀ c ∈ (tagText tag).head?, isMargin c = false := by
    intro c hc
    rw [head?_tagText, Option.mem_some_iff] at hc
    subst hc
    decide
  have hback : ∀ c ∈ (tagText tag).getLast?, isMargin c = false := by
    have htidy : Tidy tag.2.toList := hvalue ▸ tidy_joinWith hws hne
    rw [getLast?_tagText htidy.1]
    intro c hc
    exact h.value_unmarked.isMargin_eq hc (htidy.2.2.1 c hc)
  rw [cleaned, blankMarks_tagText h,
    trimEndsOf_append (by simp [tagText]) hfront hback (isMargin_blankMarks hm), htext]
  apply squeeze_joinWith
  intro w hw
  simp only [List.mem_cons] at hw
  rcases hw with rfl | rfl | hw
  · exact isWord_markWord
  · exact h.key
  · exact hws w hw

/-! ## Tags of words -/

theorem keyed?_joinWith {w : List Char} (hw : IsWord w) (ws : List (List Char)) :
    keyed? (joinWith [' '] (w :: ws)) =
      if ws = [] then none else some (String.ofList w, String.ofList (joinWith [' '] ws)) := by
  unfold keyed?
  dsimp only
  rw [takeWhile_joinWith hw, dropWhile_joinWith hw]
  by_cases hws : ws = []
  · simp [hws]
  · simp [hws, hw.1]

/-- The mark stands in front of a text of words if it is the first word and others follow. -/
theorem headerMark_isPrefixOf_iff {ws : List (List Char)} (h : ∀ w ∈ ws, IsWord w) :
    headerMark.isPrefixOf (joinWith [' '] ws) = true ↔ ∃ vs ≠ [], ws = markWord :: vs := by
  rw [List.isPrefixOf_iff_prefix, headerMark_eq]
  constructor
  · rintro ⟨rest, hrest⟩
    rw [List.append_assoc, List.singleton_append] at hrest
    cases ws with
    | nil => simp [joinWith] at hrest
    | cons w vs =>
      have hw : IsWord w := h w (by simp)
      have hfirst := takeWhile_joinWith hw vs
      have hothers := dropWhile_joinWith hw vs
      rw [← hrest, takeWhile_append_space isWord_markWord] at hfirst
      rw [← hrest, dropWhile_append_space isWord_markWord] at hothers
      refine ⟨vs, fun hnil => ?_, by rw [hfirst]⟩
      simp [hnil] at hothers
  · rintro ⟨vs, hne, rfl⟩
    refine ⟨joinWith [' '] vs, ?_⟩
    rw [joinWith_cons, if_neg hne]
    simp

/-- A tag is read from words if they begin with the mark, and its value is what follows the key. -/
theorem header?_joinWith_eq_some_iff {ws : List (List Char)} (h : ∀ w ∈ ws, IsWord w)
    (tag : String × String) :
    header? (joinWith [' '] ws) = some tag ↔
      ∃ key vs, vs ≠ [] ∧ ws = markWord :: key :: vs ∧
        tag = (String.ofList key, String.ofList (joinWith [' '] vs)) := by
  have hkeyed : ∀ key vs, ws = markWord :: key :: vs →
      header? (joinWith [' '] ws) = if vs = [] then none
        else some (String.ofList key, String.ofList (joinWith [' '] vs)) := by
    rintro key vs rfl
    have hkey : IsWord key := h key (by simp)
    have hvs : ∀ w ∈ vs, IsWord w := fun w hw => h w (by simp [hw])
    have hmark := (headerMark_isPrefixOf_iff h).mpr ⟨key :: vs, by simp, rfl⟩
    have hdrop : (joinWith [' '] (markWord :: key :: vs)).drop headerMark.length =
        joinWith [' '] (key :: vs) := by
      rw [joinWith_cons, if_neg (by simp)]
      rfl
    rw [header?, if_pos hmark, hdrop, keyed?_joinWith hkey]
    split_ifs with hnil
    · rfl
    · simp [Option.filter, joinWith_ne_nil hvs hnil]
  constructor
  · intro htag
    have hmark : headerMark.isPrefixOf (joinWith [' '] ws) = true := by
      by_contra hno
      rw [header?, if_neg hno] at htag
      cases htag
    obtain ⟨us, hne, hws⟩ := (headerMark_isPrefixOf_iff h).mp hmark
    obtain ⟨key, vs, rfl⟩ := List.exists_cons_of_ne_nil hne
    rw [hkeyed key vs hws] at htag
    split_ifs at htag with hnil
    exact ⟨key, vs, hnil, hws, (Option.some.inj htag).symm⟩
  · rintro ⟨key, vs, hne, hws, rfl⟩
    rw [hkeyed key vs hws, if_neg hne]

theorem header?_tagText {tag : String × String} (h : Writable tag) :
    header? (tagText tag) = some tag := by
  obtain ⟨ws, hne, hws, hvalue, htext⟩ := h.exists_words
  rw [htext, header?_joinWith_eq_some_iff]
  · refine ⟨tag.1.toList, ws, hne, rfl, ?_⟩
    rw [← hvalue, String.ofList_toList, String.ofList_toList]
  · intro w hw
    simp only [List.mem_cons] at hw
    rcases hw with rfl | rfl | hw
    · exact isWord_markWord
    · exact h.key
    · exact hws w hw

/-! ## Tags one by one -/

namespace Tags

theorem get?_eq_some_iff {tags : Tags} {key value : String} :
    tags.get? key = some value ↔ tags.lookup key = some value ∧ value ≠ "" := by
  rw [get?, Option.filter_eq_some_iff]
  simp

theorem isSome_identity?_iff {tags : Tags} :
    tags.identity?.isSome ↔ ∃ id name, id ≠ "" ∧ name ≠ "" ∧
      tags.lookup "id" = some id ∧ tags.lookup "name" = some name := by
  rw [Option.isSome_iff_exists, identity?]
  constructor
  · rintro ⟨identity, h⟩
    obtain ⟨id, hid, h⟩ := Option.bind_eq_some_iff.mp h
    obtain ⟨name, hname, -⟩ := Option.bind_eq_some_iff.mp h
    rw [get?_eq_some_iff] at hid hname
    exact ⟨id, name, hid.2, hname.2, hid.1, hname.1⟩
  · rintro ⟨id, name, hid, hname, hid', hname'⟩
    rw [get?_eq_some_iff.mpr ⟨hid', hid⟩, get?_eq_some_iff.mpr ⟨hname', hname⟩]
    exact ⟨(id, name), rfl⟩

theorem lookup_cons_eq (k k' v : String) (tags : Tags) :
    ((k', v) :: tags).lookup k = if k = k' then some v else tags.lookup k := by
  by_cases hk : k = k'
  · simp [hk]
  · have hne : (k == k') = false := by simpa using hk
    rw [List.lookup_cons, hne, if_neg hk]

/-- A value goes behind the one that its key has, and nothing happens to other keys. -/
theorem lookup_add (key value : String) (tags : Tags) (k : String) :
    (add key value tags).lookup k =
      if k = key then
        some (match tags.lookup key with
          | none => value
          | some v => if v.isEmpty then value else v ++ " " ++ value)
      else tags.lookup k := by
  induction tags with
  | nil => simp [add]
  | cons tag tags ih =>
    obtain ⟨k', v⟩ := tag
    by_cases hkey : k' = key
    · by_cases hk : k = key <;> simp [add, lookup_cons_eq, hkey, hk]
    · rw [add, if_neg hkey, lookup_cons_eq, ih, lookup_cons_eq, lookup_cons_eq,
        if_neg (Ne.symm hkey)]
      by_cases hk : k = key
      · simp [hk, Ne.symm hkey]
      · simp [hk]

theorem keys_add (key value : String) (tags : Tags) :
    (add key value tags).map (·.1) =
      if key ∈ tags.map (·.1) then tags.map (·.1) else tags.map (·.1) ++ [key] := by
  induction tags with
  | nil => rfl
  | cons tag tags ih =>
    obtain ⟨k, v⟩ := tag
    by_cases hkey : k = key
    · simp [add, hkey]
    · simp only [add, if_neg hkey, List.map_cons, ih, List.mem_cons, Ne.symm hkey, false_or]
      split_ifs <;> rfl

/-- The tags that are added one after the other. -/
def gathered (tags : List (String × String)) : Tags :=
  tags.foldl (fun found tag => found.add tag.1 tag.2) []

/-- What a list of tags gives for a key, in its order. -/
def values (key : String) (tags : List (String × String)) : List String :=
  (tags.filter fun tag => tag.1 == key).map (·.2)

theorem gathered_concat (tags : List (String × String)) (tag : String × String) :
    gathered (tags ++ [tag]) = (gathered tags).add tag.1 tag.2 := by
  simp [gathered]

theorem values_cons (key : String) (tag : String × String) (tags : List (String × String)) :
    values key (tag :: tags) =
      if tag.1 = key then tag.2 :: values key tags else values key tags := by
  by_cases h : tag.1 = key <;> simp [values, h]

theorem values_eq_nil_iff {key : String} {tags : List (String × String)} :
    values key tags = [] ↔ key ∉ tags.map (·.1) := by
  rw [values, List.map_eq_nil_iff, List.filter_eq_nil_iff]
  simp only [beq_iff_eq, List.mem_map, not_exists, not_and]

/-- Two values of a key as one, the second behind the first. One that is not there is left out. -/
def joined : Option String → Option String → Option String :=
  Option.merge fun v w => v ++ " " ++ w

/-- All values of a key as one, in their order. -/
def joinedAll (values : List String) : Option String :=
  if values = [] then none else some (" ".intercalate values)

@[simp] theorem joined_none_left (v : Option String) : joined none v = v := by
  cases v <;> rfl

@[simp] theorem joined_none_right (v : Option String) : joined v none = v := by
  cases v <;> rfl

theorem joined_assoc (u v w : Option String) : joined (joined u v) w = joined u (joined v w) := by
  cases u <;> cases v <;> cases w <;> simp [joined, String.append_assoc]

theorem joinedAll_cons (value : String) (values : List String) :
    joinedAll (value :: values) = joined (some value) (joinedAll values) := by
  cases values with
  | nil => simp [joinedAll]
  | cons v vs => simp [joinedAll, joined, String.intercalate_cons_of_ne_nil]

/-- A value goes behind the others of its key, and other keys keep theirs. -/
theorem get?_add {value : String} (hne : value ≠ "") (tags : Tags) (key k : String) :
    (tags.add key value).get? k =
      if k = key then joined (tags.get? key) (some value) else tags.get? k := by
  rw [get?, lookup_add]
  split_ifs with hk
  · rw [get?]
    cases tags.lookup key with
    | none => simp [Option.filter, hne]
    | some v =>
      -- an empty value counts as none, and the new one takes its place
      by_cases hv : v = ""
      · simp [Option.filter, hv, hne]
      · simp [Option.filter, hv, joined]
  · rfl

/-- Tags that are added one after the other go behind what is known, in their order. -/
theorem get?_foldl_add {new : List (String × String)} (h : ∀ tag ∈ new, tag.2 ≠ "") (tags : Tags)
    (key : String) :
    (new.foldl (fun found tag => found.add tag.1 tag.2) tags).get? key =
      joined (tags.get? key) (joinedAll (values key new)) := by
  induction new generalizing tags with
  | nil => exact (joined_none_right _).symm
  | cons tag new ih =>
    obtain ⟨htag, hnew⟩ := List.forall_mem_cons.mp h
    rw [List.foldl_cons, ih hnew, get?_add htag, values_cons]
    by_cases hkey : tag.1 = key
    · subst hkey
      rw [if_pos rfl, if_pos rfl, joinedAll_cons, joined_assoc]
    · rw [if_neg (Ne.symm hkey), if_neg hkey]

theorem nodup_keys_gathered (tags : List (String × String)) :
    ((gathered tags).map (·.1)).Nodup := by
  induction tags using List.reverseRecOn with
  | nil => simp [gathered]
  | append_singleton tags tag ih =>
    rw [gathered_concat, keys_add]
    split_ifs with hmem
    · exact ih
    · exact List.nodup_append.mpr ⟨ih, List.nodup_singleton _, by
        intro key hkey key' hkey'
        rw [List.mem_singleton] at hkey'
        exact fun heq => hmem (hkey' ▸ heq ▸ hkey)⟩

theorem mem_keys_gathered {tags : List (String × String)} {key : String} :
    key ∈ (gathered tags).map (·.1) ↔ key ∈ tags.map (·.1) := by
  induction tags using List.reverseRecOn with
  | nil => simp [gathered]
  | append_singleton tags tag ih =>
    have hconcat : key ∈ (tags ++ [tag]).map (·.1) ↔ key ∈ tags.map (·.1) ∨ key = tag.1 := by
      rw [List.map_append, List.mem_append, List.map_singleton, List.mem_singleton]
    rw [gathered_concat, keys_add, hconcat, ← ih]
    split_ifs with hmem
    · exact ⟨Or.inl, fun h => h.elim id fun heq => heq ▸ hmem⟩
    · rw [List.mem_append, List.mem_singleton]

end Tags

theorem gather_eq_foldl (tag? : List Char → Option (String × String)) (tags : Tags)
    (segments : List (List Char)) :
    gather tag? tags segments =
      (segments.filterMap tag?).foldl (fun found tag => found.add tag.1 tag.2) tags := by
  rw [gather, List.foldl_filterMap]
  congr 1
  funext found segment
  cases tag? segment <;> rfl

theorem filterMap_tagText {tags : List (String × String)} (h : ∀ tag ∈ tags, Writable tag) :
    (tags.map tagText).filterMap header? = tags := by
  rw [List.filterMap_map]
  refine (List.filterMap_congr fun tag htag => ?_).trans List.filterMap_some
  exact header?_tagText (h tag htag)

/-! ## Written comments -/

/-- The text consists of tags, each behind an `@`, and of nothing but decoration in front of them,
    between them and behind them. -/
inductive Displays : List (String × String) → List Char → Prop
  | nil {m : List Char} (margin : ∀ c ∈ m, isMargin c = true) : Displays [] m
  | cons {m cs : List Char} {tag : String × String} {tags : List (String × String)}
      (margin : ∀ c ∈ m, isMargin c = true) (rest : Displays tags cs) :
      Displays (tag :: tags) (m ++ '@' :: (tagText tag ++ cs))

theorem not_mem_of_margin {m : List Char} (hm : ∀ c ∈ m, isMargin c = true) : '@' ∉ m := by
  intro hat
  have hno : isMargin '@' = false := by decide
  rw [hm _ hat] at hno
  cases hno

theorem Writable.not_mem_tagText {tag : String × String} (h : Writable tag) :
    '@' ∉ tagText tag := by
  have hmark : '@' ∉ markWord := by decide
  simp [tagText, hmark, h.key_unmarked.1, h.value_unmarked.1]

/-- Behind the first `@`, the segments are the texts of the tags. -/
theorem Displays.segments_eq {tags : List (String × String)} {cs : List Char}
    (h : Displays tags cs) (hw : ∀ tag ∈ tags, Writable tag) :
    ∃ m pieces, splitOn '@' cs = m :: pieces ∧ (∀ c ∈ m, isMargin c = true) ∧
      pieces.map cleaned = tags.map tagText := by
  induction h with
  | @nil m margin => exact ⟨m, [], splitOn_of_not_mem (not_mem_of_margin margin), margin, rfl⟩
  | @cons m cs tag tags margin _ ih =>
    obtain ⟨m', pieces, hsplit, hm', hpieces⟩ := ih fun t ht => hw t (by simp [ht])
    have htag : Writable tag := hw tag (by simp)
    refine ⟨m, (tagText tag ++ m') :: pieces, ?_, margin, ?_⟩
    · rw [splitOn_append (not_mem_of_margin margin),
        splitOn_append_left htag.not_mem_tagText hsplit]
    · rw [List.map_cons, List.map_cons, cleaned_tagText htag hm', hpieces]

theorem headers_of_displays {tags : List (String × String)} {cs : List Char}
    (h : Displays tags cs) (hw : ∀ tag ∈ tags, Writable tag) :
    headers (String.ofList cs) = Tags.gathered tags := by
  obtain ⟨m, pieces, hsplit, -, hpieces⟩ := h.segments_eq hw
  rw [headers, String.toList_ofList, segments, hsplit, List.map_cons, List.drop_one, List.tail_cons,
    hpieces, gather_eq_foldl, filterMap_tagText hw]
  rfl

theorem Displays.margin_append {tags : List (String × String)} {m cs : List Char}
    (hm : ∀ c ∈ m, isMargin c = true) (h : Displays tags cs) : Displays tags (m ++ cs) := by
  cases h with
  | nil margin => exact .nil (List.forall_mem_append.mpr ⟨hm, margin⟩)
  | cons margin rest =>
    rw [← List.append_assoc]
    exact .cons (List.forall_mem_append.mpr ⟨hm, margin⟩) rest

/-- Tags with the same decoration in front of each. -/
theorem displays_flatMap (front : List Char) {back : List Char}
    (hfront : ∀ c ∈ front, isMargin c = true) (hback : ∀ c ∈ back, isMargin c = true)
    (tags : List (String × String)) :
    Displays tags (tags.flatMap (fun tag => front ++ '@' :: tagText tag) ++ back) := by
  induction tags with
  | nil => exact .nil hback
  | cons tag tags ih =>
    simp only [List.flatMap_cons, List.append_assoc, List.cons_append]
    exact .cons hfront ih

/-- A block comment with one line for each tag. -/
def blockComment (tags : List (String × String)) : List Char :=
  joinWith ['\n'] (['/', '*', '*'] ::
    (tags.map (fun tag => [' ', '*', ' '] ++ '@' :: tagText tag) ++ [[' ', '*', '/']]))

/-- One line comment for each tag. -/
def lineComment (tags : List (String × String)) : List Char :=
  joinWith ['\n'] (tags.map fun tag => ['/', '/', ' '] ++ '@' :: tagText tag)

theorem displays_blockComment (tags : List (String × String)) {tail : List Char}
    (htail : ∀ c ∈ tail, isBlank c = true) : Displays tags (blockComment tags ++ tail) := by
  have htail : ∀ c ∈ ['\n', ' ', '*', '/'] ++ tail, isMargin c = true :=
    List.forall_mem_append.mpr
      ⟨List.all_eq_true.mp rfl, fun c hc => isMargin_of_isBlank (htail c hc)⟩
  have hlines := displays_flatMap ['\n', ' ', '*', ' '] (List.all_eq_true.mp rfl) htail tags
  have htext : blockComment tags ++ tail = ['/', '*', '*'] ++
      (tags.flatMap (fun tag => ['\n', ' ', '*', ' '] ++ '@' :: tagText tag) ++
        (['\n', ' ', '*', '/'] ++ tail)) := by
    simp [blockComment, joinWith_cons_flatMap, List.flatMap_map]
  rw [htext]
  exact hlines.margin_append (List.all_eq_true.mp rfl)

theorem displays_lineComment (tags : List (String × String)) {tail : List Char}
    (htail : ∀ c ∈ tail, isBlank c = true) : Displays tags (lineComment tags ++ tail) := by
  have htail : ∀ c ∈ tail, isMargin c = true := fun c hc => isMargin_of_isBlank (htail c hc)
  cases tags with
  | nil => exact .nil htail
  | cons tag tags =>
    have hlines := displays_flatMap ['\n', '/', '/', ' '] (List.all_eq_true.mp rfl) htail tags
    have htext : lineComment (tag :: tags) ++ tail = ['/', '/', ' '] ++ '@' :: (tagText tag ++
        (tags.flatMap (fun tag => ['\n', '/', '/', ' '] ++ '@' :: tagText tag) ++ tail)) := by
      simp [lineComment, joinWith_cons_flatMap, List.flatMap_map]
    rw [htext]
    exact .cons (List.all_eq_true.mp rfl) hlines

/-- What is known of the tags in a list: their keys, each once, and for each key its values. -/
structure Tags.Records (found : Tags) (tags : List (String × String)) : Prop where
  nodup : (found.map (·.1)).Nodup
  keys : ∀ key, key ∈ found.map (·.1) ↔ key ∈ tags.map (·.1)
  get? : ∀ key, found.get? key =
    if key ∈ tags.map (·.1) then some (" ".intercalate (Tags.values key tags)) else none
  identity? : found.identity?.isSome ↔ "id" ∈ tags.map (·.1) ∧ "name" ∈ tags.map (·.1)

theorem Tags.records_gathered {tags : List (String × String)} (h : ∀ tag ∈ tags, tag.2 ≠ "") :
    (Tags.gathered tags).Records tags := by
  have hget : ∀ key, (Tags.gathered tags).get? key =
      if key ∈ tags.map (·.1) then some (" ".intercalate (values key tags)) else none := by
    intro key
    have hempty : values key tags = [] ↔ key ∉ tags.map (·.1) := values_eq_nil_iff
    have hjoined : (Tags.gathered tags).get? key = joinedAll (values key tags) :=
      (get?_foldl_add h [] key).trans (joined_none_left _)
    rw [hjoined, joinedAll]
    by_cases hkey : key ∈ tags.map (·.1)
    · rw [if_neg fun hnil => hempty.mp hnil hkey, if_pos hkey]
    · rw [if_pos (hempty.mpr hkey), if_neg hkey]
  refine ⟨nodup_keys_gathered tags, fun key => mem_keys_gathered, hget, ?_⟩
  rw [Tags.identity?, hget, hget]
  by_cases hid : "id" ∈ tags.map (·.1)
  · rw [if_pos hid]
    by_cases hname : "name" ∈ tags.map (·.1)
    · rw [if_pos hname]
      exact iff_of_true rfl ⟨hid, hname⟩
    · rw [if_neg hname]
      exact iff_of_false (by simp) fun hboth => hname hboth.2
  · rw [if_neg hid]
    exact iff_of_false (by simp) fun hboth => hid hboth.1

/-- Tags that are written into a comment, in a block or line by line, are read back. -/
theorem headers_written {tags : List (String × String)} (h : ∀ tag ∈ tags, Writable tag)
    {tail : List Char} (htail : ∀ c ∈ tail, isBlank c = true) :
    (headers (String.ofList (blockComment tags ++ tail))).Records tags ∧
      (headers (String.ofList (lineComment tags ++ tail))).Records tags := by
  have hgathered := Tags.records_gathered fun tag htag => (writable_iff.mp (h tag htag)).2.2.1
  rw [headers_of_displays (displays_blockComment tags htail) h,
    headers_of_displays (displays_lineComment tags htail) h]
  exact ⟨hgathered, hgathered⟩

/-- Tags with a repeated key, and with slashes and stars inside their texts. -/
def reviewTags : List (String × String) :=
  [("id", "flow/1"), ("info", "first * of"), ("name", "Review"), ("info", "all / any")]

theorem writable_reviewTags : ∀ tag ∈ reviewTags, Writable tag := by
  decide +kernel

/-- Both comments give the two values of one key as one. -/
theorem headers_written_review :
    (∀ tag ∈ reviewTags, Writable tag) ∧ (∀ c ∈ ['\n'], isBlank c = true) ∧
      (headers (String.ofList (blockComment reviewTags ++ ['\n']))).Records reviewTags ∧
      (headers (String.ofList (lineComment reviewTags ++ ['\n']))).Records reviewTags ∧
      " ".intercalate (Tags.values "info" reviewTags) = "first * of all / any" :=
  have hblank : ∀ c ∈ ['\n'], isBlank c = true := List.all_eq_true.mp rfl
  have hread := headers_written writable_reviewTags hblank
  ⟨writable_reviewTags, hblank, hread.1, hread.2, by cbv⟩

end Stepflow.Comment
