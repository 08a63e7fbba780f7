import Mathlib
import Stepflow.Proofs.Segments
import Stepflow.Proofs.WellFormed

/-!
# Tags accumulate

A comment is read segment by segment, and what a tag says goes behind what is known of its key. So
the tags of a comment that goes on behind an `@` are those of its two parts, and for each key the
values of both parts are joined.

* `headerTags`, `stepTags`: the tags that a comment holds, one by one.

Results:
* `Tags.joinedAll_append`: the values of two lists of tags.
* `headerTags_append`, `stepTags_append`: the tags of both parts follow each other.
* `get?_headers`, `annotations_eq`: what is known of a comment are all values that its tags hold.
* `tags_append`: the tags of a comment in two parts.
-/

namespace Stepflow.Comment

open Text

/-! ## Values of a key -/

namespace Tags

theorem joinedAll_append (vs ws : List String) :
    joinedAll (vs ++ ws) = joined (joinedAll vs) (joinedAll ws) := by
  induction vs with
  | nil => exact (joined_none_left _).symm
  | cons v vs ih => rw [List.cons_append, joinedAll_cons, ih, joinedAll_cons, joined_assoc]

theorem values_append (key : String) (tags tags' : List (String × String)) :
    values key (tags ++ tags') = values key tags ++ values key tags' := by
  simp [values]

/-- A value that is empty counts as none. -/
theorem get?_singleton (key value k : String) :
    Tags.get? k [(key, value)] =
      joinedAll (values k (if value = "" then [] else [(key, value)])) := by
  rw [get?, lookup_cons_eq]
  by_cases hk : k = key
  · by_cases hv : value = "" <;> simp [hk, hv, Option.filter, values, joinedAll]
  · by_cases hv : value = "" <;> simp [hk, Ne.symm hk, hv, values, joinedAll]

end Tags

open Tags (joined joinedAll values)

/-! ## Segments -/

theorem segments_append (x y : List Char) :
    segments (x ++ '@' :: y) = segments x ++ segments y := by
  rw [segments, splitOn_append_sep, List.map_append]
  rfl

theorem segments_cons_at (cs : List Char) : segments ('@' :: cs) = [] :: segments cs := by
  have hnil : segments [] = [[]] := segments_eq_singleton_iff.mpr canonical_nil
  have happend := segments_append [] cs
  rwa [hnil] at happend

theorem exists_segments_eq_cons (cs : List Char) :
    ∃ preamble tagged, segments cs = preamble :: tagged := by
  apply List.exists_cons_of_length_pos
  rw [length_segments]
  omega

/-! ## Tags of a comment -/

/-- The tags of a chart that a comment holds, one by one. -/
def headerTags (comment : String) : List (String × String) :=
  ((segments comment.toList).drop 1).filterMap header?

/-- The tags of a step that a comment holds, one by one. Text in front of them counts as one. -/
def stepTags (comment : String) : List (String × String) :=
  match segments comment.toList with
  | [] => []
  | preamble :: tagged =>
    (if String.ofList preamble = "" then [] else [("info", String.ofList preamble)]) ++
      tagged.filterMap keyed?

theorem toList_append_at (a b : String) :
    (a ++ "@" ++ b).toList = a.toList ++ '@' :: b.toList := by
  simp

theorem toList_at_append (b : String) : ("@" ++ b).toList = '@' :: b.toList := by
  simp

theorem headerTags_append (a b : String) :
    headerTags (a ++ "@" ++ b) = headerTags a ++ headerTags ("@" ++ b) := by
  obtain ⟨preamble, tagged, hsegments⟩ := exists_segments_eq_cons a.toList
  rw [headerTags, headerTags, headerTags, toList_append_at, toList_at_append, segments_append,
    segments_cons_at, hsegments]
  simp

/-- The second part begins with an `@`, so no text stands in front of its tags. -/
theorem stepTags_append (a b : String) :
    stepTags (a ++ "@" ++ b) = stepTags a ++ stepTags ("@" ++ b) := by
  obtain ⟨preamble, tagged, hsegments⟩ := exists_segments_eq_cons a.toList
  rw [stepTags, stepTags, stepTags, toList_append_at, toList_at_append, segments_append,
    segments_cons_at, hsegments]
  simp

/-- Of a chart, all values that its tags hold are known. -/
theorem get?_headers (comment key : String) :
    (headers comment).get? key = joinedAll (values key (headerTags comment)) := by
  have hvalues : ∀ tag ∈ ((segments comment.toList).drop 1).filterMap header?, tag.2 ≠ "" := by
    intro tag htag
    obtain ⟨segment, hsegment, htag⟩ := List.mem_filterMap.mp htag
    exact (phrase_of_header? (phrase_of_mem_segments (List.mem_of_mem_drop hsegment)) htag).2
  rw [headers, gather_eq_foldl, Tags.get?_foldl_add hvalues]
  exact Tags.joined_none_left _

/-- Of a step, all values that its tags hold are known, behind the text in front of them. -/
theorem annotations_eq (comment : String) :
    annotations comment =
      { name := joinedAll (values "name" (stepTags comment))
        info := joinedAll (values "info" (stepTags comment))
        px := joinedAll (values "px" (stepTags comment)) } := by
  obtain ⟨preamble, tagged, hsegments⟩ := exists_segments_eq_cons comment.toList
  have hvalues : ∀ tag ∈ tagged.filterMap keyed?, tag.2 ≠ "" := by
    intro tag htag
    obtain ⟨segment, hsegment, htag⟩ := List.mem_filterMap.mp htag
    have hmem : segment ∈ segments comment.toList := by
      rw [hsegments]
      exact List.mem_cons_of_mem _ hsegment
    exact (phrase_of_keyed? (phrase_of_mem_segments hmem) htag).2
  have hget : ∀ key, Tags.get? key (gather keyed? [("info", String.ofList preamble)] tagged) =
      joinedAll (values key (stepTags comment)) := by
    intro key
    rw [gather_eq_foldl, Tags.get?_foldl_add hvalues, Tags.get?_singleton, stepTags, hsegments,
      Tags.values_append, Tags.joinedAll_append]
  rw [annotations, hsegments]
  simp only [hget]

/-- The segments of a comment in two parts, with an `@` between them, are those of its parts. For
    each key, and for each annotation of a step, the values of both parts are joined. Of every
    comment, what is known of a key are all values that its tags hold, in their order. -/
theorem tags_append (a b : String) :
    segments (a ++ "@" ++ b).toList = segments a.toList ++ segments b.toList ∧
    (∀ key, (headers (a ++ "@" ++ b)).get? key =
      joined ((headers a).get? key) ((headers ("@" ++ b)).get? key)) ∧
    annotations (a ++ "@" ++ b) =
      { name := joined (annotations a).name (annotations ("@" ++ b)).name
        info := joined (annotations a).info (annotations ("@" ++ b)).info
        px := joined (annotations a).px (annotations ("@" ++ b)).px } ∧
    (∀ key, (headers a).get? key = joinedAll (values key (headerTags a))) ∧
    annotations a =
      { name := joinedAll (values "name" (stepTags a))
        info := joinedAll (values "info" (stepTags a))
        px := joinedAll (values "px" (stepTags a)) } := by
  refine ⟨?_, fun key => ?_, ?_, get?_headers a, annotations_eq a⟩
  · rw [toList_append_at, segments_append]
  · rw [get?_headers, get?_headers, get?_headers, headerTags_append, Tags.values_append,
      Tags.joinedAll_append]
  · simp only [annotations_eq, stepTags_append, Tags.values_append, Tags.joinedAll_append]

end Stepflow.Comment
