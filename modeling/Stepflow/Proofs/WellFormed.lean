import Mathlib
import Stepflow.Proofs.Locality
import Stepflow.Proofs.Outermost

/-!
# Charts are well formed

Whatever tree a source has, the charts that are found in it are complete: none of their texts is
empty or untidy, no sequence is empty, and a step is either code or one edge.

* `Comment.Phrase`: words with single spaces between them, without `@`.
* `Comment.IsNote`: the same for a text that is not empty, without reference to words.
* `Step.WellFormed`, `Sequence.WellFormed`, `Chart.WellFormed`: what holds of all charts.

Results:
* `Comment.isNote_of_headers`, `Comment.isNote_of_annotations`: what comments say are notes.
* `Arena.walk_invariant`: what every visit preserves, a walk preserves.
* `Flow.wellFormed_step`, `Flow.wellFormed_chart?`: steps and charts are well formed.
* `Source.extract_wellFormed`: all charts of a source are well formed.
-/

namespace Stepflow

open Text

/-! ## Comments -/

namespace Comment

/-- Words with single spaces between them, without an `@` in them. There may be no words. -/
def Phrase (cs : List Char) : Prop :=
  ∃ ws, cs = joinWith [' '] ws ∧ ∀ w ∈ ws, IsWord w ∧ '@' ∉ w

/-- A text that is not empty and has no `@` in it. No blank stands at its ends, and all blanks in it
    are single spaces. -/
def IsNote (s : String) : Prop :=
  Tidy s.toList ∧ '@' ∉ s.toList
  deriving Decidable

theorem Phrase.isNote {s : String} (h : Phrase s.toList) (hne : s ≠ "") : IsNote s := by
  obtain ⟨ws, hs, hws⟩ := h
  have hnil : ws ≠ [] := by
    rintro rfl
    exact hne (String.toList_eq_nil_iff.mp hs)
  refine ⟨hs ▸ tidy_joinWith (fun w hw => (hws w hw).1) hnil, fun hat => ?_⟩
  rw [hs] at hat
  rcases mem_joinWith hat with hat | ⟨w, hw, hat⟩
  · simp at hat
  · exact (hws w hw).2 hat

theorem Phrase.append {x y : List Char} (hx : Phrase x) (hy : Phrase y) (hxne : x ≠ [])
    (hyne : y ≠ []) : Phrase (x ++ ' ' :: y) := by
  obtain ⟨vs, rfl, hvs⟩ := hx
  obtain ⟨ws, rfl, hws⟩ := hy
  have hvne : vs ≠ [] := by
    rintro rfl
    exact hxne rfl
  have hwne : ws ≠ [] := by
    rintro rfl
    exact hyne rfl
  refine ⟨vs ++ ws, ?_, List.forall_mem_append.mpr ⟨hvs, hws⟩⟩
  rw [joinWith_append [' '] hvne hwne, List.append_assoc, List.singleton_append]

theorem phrase_of_mem_segments {cs segment : List Char} (h : segment ∈ segments cs) :
    Phrase segment := by
  rw [segments, List.mem_map] at h
  obtain ⟨piece, hpiece, rfl⟩ := h
  refine ⟨_, rfl, fun w hw => ⟨isWord_of_mem_words hw, fun hat => ?_⟩⟩
  rcases mem_blankMarks (mem_of_mem_trimEndsOf (mem_of_mem_words hw hat)) with hat | hat
  · simp at hat
  · exact not_mem_of_mem_splitOn hpiece hat

/-- What stands behind the key of a tag is not empty. -/
theorem phrase_of_keyed? {segment : List Char} (h : Phrase segment) {tag : String × String}
    (htag : keyed? segment = some tag) : Phrase tag.2.toList ∧ tag.2 ≠ "" := by
  obtain ⟨ws, rfl, hws⟩ := h
  cases ws with
  | nil => simp [keyed?, joinWith] at htag
  | cons w ws =>
    rw [keyed?_joinWith (hws w (by simp)).1] at htag
    split_ifs at htag with hnil
    obtain rfl := Option.some.inj htag
    have hws : ∀ v ∈ ws, IsWord v ∧ '@' ∉ v := fun v hv => hws v (by simp [hv])
    refine ⟨⟨ws, String.toList_ofList, hws⟩, fun hempty => ?_⟩
    have hvalue := joinWith_ne_nil (fun v hv => (hws v hv).1) hnil
    rw [← String.toList_eq_nil_iff, String.toList_ofList] at hempty
    exact hvalue hempty

theorem phrase_of_header? {segment : List Char} (h : Phrase segment) {tag : String × String}
    (htag : header? segment = some tag) : Phrase tag.2.toList ∧ tag.2 ≠ "" := by
  obtain ⟨ws, rfl, hws⟩ := h
  rw [header?_joinWith_eq_some_iff fun w hw => (hws w hw).1] at htag
  obtain ⟨key, vs, hne, rfl, rfl⟩ := htag
  have hkeyed := keyed?_joinWith (hws key (by simp)).1 vs
  rw [if_neg hne] at hkeyed
  exact phrase_of_keyed? ⟨key :: vs, rfl, fun w hw => hws w (by simp [hw])⟩ hkeyed

/-- All values are phrases. -/
def Tags.Phrased (tags : Tags) : Prop :=
  ∀ tag ∈ tags, Phrase tag.2.toList

namespace Tags

theorem Phrased.add {tags : Tags} (h : tags.Phrased) {key value : String}
    (hvalue : Phrase value.toList) (hne : value ≠ "") : (tags.add key value).Phrased := by
  induction tags with
  | nil =>
    intro tag htag
    rw [List.mem_singleton.mp htag]
    exact hvalue
  | cons tag tags ih =>
    obtain ⟨k, v⟩ := tag
    obtain ⟨hv, htags⟩ := List.forall_mem_cons.mp h
    rw [Tags.add]
    split_ifs with hkey hempty
    · exact List.forall_mem_cons.mpr ⟨hvalue, htags⟩
    · refine List.forall_mem_cons.mpr ⟨?_, htags⟩
      have hjoined := hv.append hvalue (by simpa using hempty) (by simpa using hne)
      simpa using hjoined
    · exact List.forall_mem_cons.mpr ⟨hv, ih htags⟩

theorem Phrased.gather {tag? : List Char → Option (String × String)}
    (htag? : ∀ segment tag, Phrase segment → tag? segment = some tag →
      Phrase tag.2.toList ∧ tag.2 ≠ "")
    {segments : List (List Char)} (hsegments : ∀ segment ∈ segments, Phrase segment)
    {tags : Tags} (h : tags.Phrased) : Phrased (Comment.gather tag? tags segments) := by
  unfold Comment.gather
  induction segments generalizing tags with
  | nil => exact h
  | cons segment segments ih =>
    obtain ⟨hsegment, hsegments⟩ := List.forall_mem_cons.mp hsegments
    rw [List.foldl_cons]
    cases htag : tag? segment with
    | none => exact ih hsegments h
    | some tag =>
      obtain ⟨hvalue, hne⟩ := htag? segment tag hsegment htag
      exact ih hsegments (h.add hvalue hne)

theorem mem_of_lookup {tags : Tags} {key value : String} (h : tags.lookup key = some value) :
    (key, value) ∈ tags := by
  obtain ⟨l₁, l₂, rfl, -⟩ := List.lookup_eq_some_iff.mp h
  simp

theorem Phrased.isNote {tags : Tags} (h : tags.Phrased) {key value : String}
    (hvalue : tags.get? key = some value) : IsNote value := by
  rw [get?_eq_some_iff] at hvalue
  exact Phrase.isNote (h _ (mem_of_lookup hvalue.1)) hvalue.2

end Tags

theorem isNote_of_headers {comment key value : String}
    (h : (headers comment).get? key = some value) : IsNote value := by
  have hstart : Tags.Phrased [] := List.forall_mem_nil _
  have hall : (headers comment).Phrased :=
    hstart.gather (fun _ _ hs ht => phrase_of_header? hs ht)
      fun segment hmem => phrase_of_mem_segments (List.mem_of_mem_drop hmem)
  exact hall.isNote h

/-- The text in front of the tags may be empty. Then it is not there, or tags go in its place. -/
theorem isNote_of_annotations (comment : String) :
    (∀ s ∈ (annotations comment).name, IsNote s) ∧ (∀ s ∈ (annotations comment).info, IsNote s) ∧
      ∀ s ∈ (annotations comment).px, IsNote s := by
  unfold annotations
  have hphrase : ∀ segment ∈ segments comment.toList, Phrase segment :=
    fun segment hmem => phrase_of_mem_segments hmem
  generalize segments comment.toList = found at hphrase
  cases found with
  | nil => simp [Tags.get?]
  | cons preamble tagged =>
    obtain ⟨hpreamble, htagged⟩ := List.forall_mem_cons.mp hphrase
    have hstart : Tags.Phrased [("info", String.ofList preamble)] := by
      simpa [Tags.Phrased] using hpreamble
    have hall := hstart.gather (fun _ _ hs ht => phrase_of_keyed? hs ht) htagged
    exact ⟨fun s hs => hall.isNote hs, fun s hs => hall.isNote hs, fun s hs => hall.isNote hs⟩

end Comment

/-! ## Walks -/

/-- What every visit preserves, a walk preserves. -/
theorem Arena.walk_invariant {σ : Type} {P : σ → Prop} (a : Arena) (v : Visitor σ)
    (hvisit : ∀ kind id s, P s → P ((v.dispatch kind id).run s).2) (start : Nat) {s : σ}
    (hs : P s) : P ((a.walk v start).run s).2 := by
  have hrun : ∀ (visits : Nat) (waiting : List Nat) (s : σ), P s →
      P ((a.walkFrom v visits waiting).run s).2 := by
    intro visits
    induction visits with
    | zero => exact fun _ _ hs => hs
    | succ visits ih =>
      intro waiting s hs
      cases waiting with
      | nil => exact hs
      | cons id waiting =>
        rw [Arena.walkFrom]
        cases a.node? id with
        | none => exact ih waiting s hs
        | some n =>
          dsimp only
          rw [StateT.run_bind]
          have hstep := hvisit n.kind id s hs
          generalize (v.dispatch n.kind id).run s = visited at hstep
          obtain ⟨down, s'⟩ := visited
          cases down with
          | false => exact ih waiting s' hstep
          | true => exact ih (n.nodes ++ waiting) s' hstep
  exact hrun a.size [start] s hs

namespace Flow

/-! ## Steps -/

/-- A step is code or one edge, only code is assigned, and its texts are notes. -/
structure Step.WellFormed (s : Step) : Prop where
  one : [s.code.isSome, s.fail.isSome, s.last.isSome, s.next.isSome].count true = 1
  assign : ∀ name ∈ s.assign, s.code.isSome ∧ name ≠ ""
  name : ∀ text ∈ s.name, Comment.IsNote text
  info : ∀ text ∈ s.info, Comment.IsNote text
  px : ∀ text ∈ s.px, Comment.IsNote text

/-- A comment replaces all texts of a step and nothing else. -/
theorem Step.WellFormed.of_annotate {s : Step}
    (hone : [s.code.isSome, s.fail.isSome, s.last.isSome, s.next.isSome].count true = 1)
    (hassign : ∀ name ∈ s.assign, s.code.isSome ∧ name ≠ "") (comment : String) :
    (s.annotate (Comment.annotations comment)).WellFormed :=
  have hnotes := Comment.isNote_of_annotations comment
  ⟨hone, hassign, hnotes.1, hnotes.2.1, hnotes.2.2⟩

theorem exists_of_decision? {a : Arena} {id : Nat} {s : Step} (h : decision? a id = some s) :
    ∃ route edge, s = Step.decision route edge := by
  rw [decision?, DecisionState.step?] at h
  split_ifs at h
  split at h
  · exact ⟨_, _, (Option.some.inj h).symm⟩
  · cases h

theorem wellFormed_step (a : Arena) (source : List Char) (n : Node) (id : Nat) :
    (step a source n id).WellFormed := by
  unfold step
  dsimp only
  cases hdecision : decision? a (subject n id) with
  | some s =>
    obtain ⟨route, edge, rfl⟩ := exists_of_decision? hdecision
    cases route <;> exact Step.WellFormed.of_annotate rfl (by simp [Step.decision]) _
  | none =>
    refine Step.WellFormed.of_annotate rfl (fun name hname => ⟨rfl, ?_⟩) _
    simp only [codeStep, Step.ofCode] at hname
    split_ifs at hname with hempty
    · cases hname
    · obtain rfl := Option.some.inj hname
      simpa using hempty

/-! ## Sequences -/

/-- A sequence has a step, and its steps are well formed. -/
structure Sequence.WellFormed (s : Sequence) : Prop where
  steps_ne_nil : s.steps ≠ []
  steps : ∀ step ∈ s.steps, step.WellFormed

theorem wellFormed_steps (a : Arena) (source : List Char) (ids : List Nat) :
    ∀ s ∈ steps a source ids, s.WellFormed := by
  induction ids with
  | nil => exact List.forall_mem_nil _
  | cons id ids ih =>
    rw [steps]
    cases a.node? id with
    | none => exact ih
    | some n =>
      dsimp only
      split_ifs
      · exact List.forall_mem_nil _
      · exact List.forall_mem_cons.mpr ⟨wellFormed_step a source n id, ih⟩

theorem wellFormed_sequence? {a : Arena} {source : List Char} {n : Node} {s : Sequence}
    (h : sequence? a source n = some s) : s.WellFormed := by
  obtain ⟨id, -, h⟩ := Option.bind_eq_some_iff.mp h
  have hsteps := wellFormed_steps a source (n.allIn .consequent)
  split at h
  · cases h
  · next hne =>
    obtain rfl := Option.some.inj h
    exact ⟨hne, hsteps⟩

/-! ## Variables -/

/-- A variable is no control variable. -/
def Variable.WellFormed (v : Variable) : Prop :=
  v.name.toList.head? ≠ some controlMark
  deriving Decidable

theorem wellFormed_declared? {a : Arena} {source : List Char} {n : Node} {v : Variable}
    (h : declared? a source n = some v) : v.WellFormed := by
  obtain ⟨id, -, h⟩ := Option.bind_eq_some_iff.mp h
  obtain ⟨binding, -, h⟩ := Option.bind_eq_some_iff.mp h
  split at h
  · split_ifs at h with hmark
    obtain rfl := Option.some.inj h
    exact hmark
  · cases h

/-! ## Charts -/

/-- The texts of a chart are notes, and its variables and sequences are well formed. -/
structure Chart.WellFormed (c : Chart) : Prop where
  id : Comment.IsNote c.id
  name : Comment.IsNote c.name
  info : ∀ text ∈ c.info, Comment.IsNote text
  px : ∀ text ∈ c.px, Comment.IsNote text
  vars : ∀ v ∈ c.vars, v.WellFormed
  body : ∀ s ∈ c.body, s.WellFormed

/-- What was found is well formed. -/
structure Content.WellFormed (c : Content) : Prop where
  vars : ∀ v ∈ c.vars, v.WellFormed
  body : ∀ s ∈ c.body, s.WellFormed

theorem Content.WellFormed.visit {c : Content} (h : c.WellFormed) (a : Arena) (source : List Char)
    (kind : Kind) (id : Nat) :
    (((contentVisitor a source).dispatch kind id).run c).2.WellFormed := by
  rw [dispatch_contentVisitor]
  split
  · refine ⟨h.vars, List.forall_mem_append.mpr ⟨fun s hs => ?_, h.body⟩⟩
    obtain ⟨n, -, hs⟩ := Option.bind_eq_some_iff.mp (Option.mem_toList.mp hs)
    exact wellFormed_sequence? hs
  · refine ⟨List.forall_mem_append.mpr ⟨fun v hv => ?_, h.vars⟩, h.body⟩
    obtain ⟨n, -, hv⟩ := Option.bind_eq_some_iff.mp (Option.mem_toList.mp hv)
    exact wellFormed_declared? hv
  · exact h

theorem wellFormed_chart? {a : Arena} {source : List Char} {id : Nat} {c : Chart}
    (h : chart? a source id = some c) : c.WellFormed := by
  obtain ⟨n, -, h⟩ := Option.bind_eq_some_iff.mp h
  obtain ⟨⟨chartId, name⟩, hidentity, h⟩ := Option.bind_eq_some_iff.mp h
  obtain ⟨i, hi, hidentity⟩ := Option.bind_eq_some_iff.mp hidentity
  obtain ⟨m, hm, hidentity⟩ := Option.bind_eq_some_iff.mp hidentity
  obtain ⟨rfl, rfl⟩ := Prod.mk.inj (Option.some.inj hidentity)
  obtain rfl := Option.some.inj h
  have hcontent : ((a.walk (contentVisitor a source) id).run {}).2.WellFormed :=
    a.walk_invariant _ (fun kind id c hc => hc.visit a source kind id) id ⟨nofun, nofun⟩
  exact {
    id := Comment.isNote_of_headers hi
    name := Comment.isNote_of_headers hm
    info := fun _ htext => Comment.isNote_of_headers htext
    px := fun _ htext => Comment.isNote_of_headers htext
    vars := fun v hv => hcontent.vars v (List.mem_reverse.mp hv)
    body := fun s hs => hcontent.body s (List.mem_reverse.mp hs) }

theorem wellFormed_charts (a : Arena) (source : List Char) :
    ∀ c ∈ charts a source, c.WellFormed := by
  unfold charts
  cases a.root? with
  | none => exact List.forall_mem_nil _
  | some root =>
    intro c hc
    refine a.walk_invariant (P := fun found => ∀ c ∈ found, Chart.WellFormed c)
      (chartVisitor a source) ?_ root (List.forall_mem_nil Chart.WellFormed) c
      (List.mem_reverse.mp hc)
    intro kind id found hfound
    rw [dispatch_chartVisitor]
    split_ifs
    · exact List.forall_mem_append.mpr
        ⟨fun c hc => wellFormed_chart? (Option.mem_toList.mp hc), hfound⟩
    · exact hfound

end Flow

namespace Source

/-- All charts of a source are well formed, whatever its tree is. -/
theorem extract_wellFormed {reader : Reader} {source : String} {e : Extract}
    (h : extract reader source = .ok e) : ∀ c ∈ e.charts, c.WellFormed := by
  obtain ⟨t, -, -, rfl⟩ := extract_eq_ok_iff.mp h
  exact Flow.wellFormed_charts _ _

/-- The number `2 ^ k` with its place. -/
def powerAt (k : Int) (start : Nat) : Branch :=
  .leaf (.numericLiteral (.finite false (2 ^ 52) (k - 52))) { start := start, stop := start + 1 }

/-- A function with two variables and one case, in which a value is assigned and an edge follows. -/
def loadFlow : Tree where
  kind := .module
  span := { start := 1, stop := 83 }
  fields := [(.body, .node .functionDeclaration { start := 35, stop := 83 } [
    (.children, .list [
      .node .variableDeclarator { start := 37, stop := 39 }
        [(.id, .leaf (.identifier "$x") { start := 37, stop := 39 })],
      .node .variableDeclarator { start := 40, stop := 41 }
        [(.id, .leaf (.identifier "y") { start := 40, stop := 41 })]]),
    (.body, .node .switchCase { start := 43, stop := 82 } [
      (.test, powerAt 0 48),
      (.consequent, .list [
        .node (.assignmentExpression "=") { start := 62, stop := 65 } [
          (.left, .leaf (.identifier "x") { start := 62, stop := 63 }),
          (.right, powerAt 1 64)],
        .node (.binaryExpression "&&") { start := 66, stop := 82 } [
          (.left, .leaf (.identifier "$test") { start := 66, stop := 71 }),
          (.right, .node .parenthesisExpression { start := 73, stop := 82 } [
            (.children, .node (.assignmentExpression "=") { start := 74, stop := 81 } [
              (.left, .leaf (.identifier "$next") { start := 74, stop := 79 }),
              (.right, powerAt 2 80)])])]])])])]

/-- The source of the function. The comment on the assignment has a text in front of its tag. -/
def loadFlowSource : String :=
  "//@codeflow id i @codeflow name n\nf($x,y)\x7bcase 1://a @name b\nx=2;$test&&($next=4)\x7d"

/-- The chart of the function. The control variable is not there. -/
def loadChart : Flow.Chart where
  id := "i"
  name := "n"
  info := none
  px := none
  indent := (0, 0)
  span := (34, 82)
  vars := [{ name := "y", type := none, init := none }]
  body := [{
    id := 1
    steps := [
      { code := some "2", assign := some "x", name := some "b", info := some "a" },
      { next := some { target := .finite false (2 ^ 52) (-50), mode := .holds } }] }]

theorem charts_loadFlow :
    Flow.charts (Arena.ofTree loadFlow loadFlowSource.toList) loadFlowSource.toList =
      [loadChart] := by
  -- the nodes are sorted first, which the kernel does not do by itself; it is needed for numbers
  conv_lhs =>
    arg 1
    cbv
  decide +kernel

theorem loadChart_wellFormed :
    extract (fun _ _ => .ok loadFlow) loadFlowSource =
        .ok { charts := [loadChart], text := loadFlowSource } ∧
      loadChart.WellFormed := by
  have hlines : unifyLineEnds loadFlowSource.toList = loadFlowSource.toList := by decide +kernel
  have hextract : extract (fun _ _ => .ok loadFlow) loadFlowSource =
      .ok { charts := [loadChart], text := loadFlowSource } := by
    rw [extract_eq_ok_iff, hlines]
    exact ⟨loadFlow, rfl, by cbv, by rw [charts_loadFlow, String.ofList_toList]⟩
  exact ⟨hextract, extract_wellFormed hextract loadChart (List.mem_singleton_self _)⟩

end Source

end Stepflow
