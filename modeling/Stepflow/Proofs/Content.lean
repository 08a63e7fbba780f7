import Mathlib
import Stepflow.Proofs.Locality
import Stepflow.Proofs.Outermost
import Stepflow.Proofs.Rounding

/-!
# What a chart collects

One walk collects the sequences of cases and the variables of declarators. It goes down at all other
nodes and stops at these, so a case or a declarator counts if it does not lie in another one. The
sequence of a case ends in front of its first `break`.

* `Flow.isContent`: the kinds at which the walk stops.
* `Flow.Uncovered`: a node has no case and no declarator above it.
* `Flow.found`: the places of the nodes of a kind at which the walk stops.
* `Flow.beforeBreak`: the statements of a case in front of its first `break`.
* `Flow.CaseNumber`, `Flow.Binds`: the integer that a case tests, the name that a declarator binds.

Results:
* `Flow.walk_contentVisitor`: the walk fills two lists, and neither depends on the other.
* `Flow.mem_found_iff`: the walk stops at uncovered nodes.
* `Flow.sequence?_of_beforeBreak`: what stands behind the first `break` does not matter.
* `Flow.readsCase`, `Flow.readsDeclarator`: what cases and declarators give.
* `Flow.chart?_content`: all of this for the chart at a place.
-/

namespace Stepflow

theorem Arena.Outlines.of_mem_outermost {a : Arena} {o : Outline} {stops : Kind → Bool}
    (h : a.Outlines o) {o' : Outline} (ho : o' ∈ o.outermost stops) : a.Outlines o' := by
  induction h with
  | @intro id n parts hnode hnodes hall ih =>
    rw [Outline.outermost] at ho
    split at ho
    · rw [List.mem_singleton.mp ho]
      exact .intro hnode hnodes hall
    · rw [Outline.outermostAll_eq, List.mem_flatMap] at ho
      obtain ⟨part, hpart, ho⟩ := ho
      exact ih part hpart ho

namespace Flow

open Arena (ofTree Shares)

/-! ## Two collections -/

/-- The kinds at which the walk for a chart stops: cases and declarators. -/
def isContent : Kind → Bool
  | .switchCase => true
  | .variableDeclarator => true
  | _ => false

/-- A node of the kind lies at or below the start, and of the nodes above it, up to the start, none
    is a case or a declarator. -/
structure Uncovered (a : Arena) (start : Nat) (kind : Kind) (k : Nat) : Prop where
  above : a.Above start k
  kind : a.kind? k = some kind
  free : ∀ j, a.Above start j → a.Above j k → j ≠ k →
    a.kind? j ≠ some .switchCase ∧ a.kind? j ≠ some .variableDeclarator

/-- The places at which the walk stops at a node of the kind. -/
def found (o : Outline) (kind : Kind) : List Nat :=
  ((o.outermost isContent).filter fun o => o.node.kind = kind).map (·.place)

/-- The sequence of the case at a place. -/
def sequenceAt (a : Arena) (text : List Char) (k : Nat) : Option Sequence :=
  (a.node? k).bind (sequence? a text)

/-- The variable of the declarator at a place. -/
def variableAt (a : Arena) (text : List Char) (k : Nat) : Option Variable :=
  (a.node? k).bind (declared? a text)

section Walk

variable {a : Arena} {text : List Char} {o : Outline}

/-- The walk stops at cases and declarators. A case adds to one list, a declarator to the other. -/
theorem dispatch_contentVisitor_eq (a : Arena) (text : List Char) (kind : Kind) (id : Nat)
    (c : Content) :
    ((contentVisitor a text).dispatch kind id).run c =
      if isContent kind then
        (false, {
          vars :=
            (if kind = .variableDeclarator then variableAt a text id else none).toList ++ c.vars
          body := (if kind = .switchCase then sequenceAt a text id else none).toList ++ c.body })
      else (true, c) := by
  rw [dispatch_contentVisitor]
  cases kind <;> rfl

theorem foldl_content {α : Type} (f : α → Option Variable) (g : α → Option Sequence)
    (xs : List α) (c : Content) :
    xs.foldl (fun (c : Content) x =>
        { vars := (f x).toList ++ c.vars, body := (g x).toList ++ c.body }) c =
      { vars := (xs.filterMap f).reverse ++ c.vars
        body := (xs.filterMap g).reverse ++ c.body } := by
  induction xs generalizing c with
  | nil => rfl
  | cons x xs ih =>
    rw [List.foldl_cons, ih]
    cases hf : f x <;> cases hg : g x <;> simp [hf, hg]

theorem filterMap_found {β : Type} (o : Outline) (kind : Kind) (f : Nat → Option β) :
    (o.outermost isContent).filterMap (fun o => if o.node.kind = kind then f o.place else none) =
      (found o kind).filterMap f := by
  rw [found, List.filterMap_map, List.filterMap_filter]
  simp only [decide_eq_true_eq]
  rfl

/-- The walk fills two lists, each from the nodes of its own kind. -/
theorem walk_contentVisitor (h : a.Outlines o) (hsize : o.places.length ≤ a.size)
    (text : List Char) :
    ((a.walk (contentVisitor a text) o.place).run {}).2 =
      { vars := ((found o .variableDeclarator).filterMap (variableAt a text)).reverse
        body := ((found o .switchCase).filterMap (sequenceAt a text)).reverse } := by
  rw [Arena.walk_eq_outline_walk h hsize,
    Outline.walk_of_stops (dispatch_contentVisitor_eq a text), foldl_content, List.append_nil,
    List.append_nil, filterMap_found, filterMap_found]

theorem found_sublist (o : Outline) (kind : Kind) : (found o kind).Sublist o.places :=
  (List.filter_sublist.map _).trans (o.outermost_sublist isContent)

end Walk

theorem stopsAt_isContent_iff {a : Arena} {k : Nat} :
    a.StopsAt isContent k ↔
      a.kind? k = some .switchCase ∨ a.kind? k = some .variableDeclarator := by
  rw [Arena.StopsAt, Arena.kind?]
  cases a.node? k with
  | none => simp
  | some n =>
    simp only [Option.some.injEq, exists_eq_left', Option.map_some]
    cases n.kind <;> simp [isContent]

/-- The walk stops at the uncovered nodes of the kind. -/
theorem mem_found_iff {t : Tree} {text : List Char} {o : Outline}
    (h : (ofTree t text).Outlines o) (hsize : o.place < (ofTree t text).size) {kind : Kind}
    (hkind : isContent kind = true) (k : Nat) :
    k ∈ found o kind ↔ Uncovered (ofTree t text) o.place kind k := by
  -- of all the places at which the walk stops, those of the kind count
  have hfound : k ∈ found o kind ↔
      k ∈ (o.outermost isContent).map (·.place) ∧ (ofTree t text).kind? k = some kind := by
    rw [found, List.mem_map, List.mem_map]
    constructor
    · rintro ⟨o', ho', rfl⟩
      obtain ⟨ho', hkind'⟩ := List.mem_filter.mp ho'
      refine ⟨⟨o', ho', rfl⟩, ?_⟩
      rw [Arena.kind?, (h.of_mem_outermost ho').node?_eq, ← of_decide_eq_true hkind']
      rfl
    · rintro ⟨⟨o', ho', rfl⟩, hkind'⟩
      rw [Arena.kind?, (h.of_mem_outermost ho').node?_eq] at hkind'
      exact ⟨o', List.mem_filter.mpr ⟨ho', decide_eq_true (Option.some.inj hkind')⟩, rfl⟩
  rw [hfound, Arena.mem_outermost_iff h hsize]
  simp only [h.mem_places_iff, stopsAt_isContent_iff, not_or]
  constructor
  · rintro ⟨⟨habove, -, hfree⟩, hk⟩
    exact ⟨habove, hk, hfree⟩
  · intro hk
    refine ⟨⟨hk.above, ?_, hk.free⟩, hk.kind⟩
    rw [hk.kind]
    cases kind with
    | switchCase => exact .inl rfl
    | variableDeclarator => exact .inr rfl
    | _ => cases hkind

/-! ## Cases -/

/-- The statements of a case in front of its first `break`. -/
def beforeBreak (a : Arena) (n : Node) : List Nat :=
  (n.allIn .consequent).takeWhile fun id => a.kind? id ≠ some .breakStatement

/-- The first test of a case is a literal of an integer. -/
def CaseNumber (a : Arena) (n : Node) (number : Int) : Prop :=
  ∃ test value, n.firstIn? .test = some test ∧ a.kind? test = some (.numericLiteral value) ∧
    value.value? = some (number : ℚ)

/-- The step of the statement at a place. -/
def stepAt (a : Arena) (text : List Char) (id : Nat) : Option Step :=
  (a.node? id).map fun n => step a text n id

section Cases

variable {a a' : Arena} {text text' : List Char} {n n' : Node}

theorem steps_eq_filterMap (a : Arena) (text : List Char) (ids : List Nat) :
    steps a text ids =
      (ids.takeWhile fun id => a.kind? id ≠ some .breakStatement).filterMap (stepAt a text) := by
  induction ids with
  | nil => rfl
  | cons id ids ih =>
    rw [steps, List.takeWhile_cons, Arena.kind?]
    cases hn : a.node? id with
    | none => simp [stepAt, hn, ih]
    | some n =>
      by_cases hbreak : n.kind = .breakStatement
      · simp [hbreak]
      · simp [stepAt, hn, ih, hbreak]

theorem caseNumber_iff {number : Int} :
    CaseNumber a n number ↔ ∃ value, (n.firstIn? .test).bind a.kind? =
      some (.numericLiteral value) ∧ value.value? = some (number : ℚ) := by
  simp only [CaseNumber, Option.bind_eq_some_iff]
  grind

theorem caseId?_eq_some_iff {id : Int} :
    caseId? a n = some id ↔
      ∃ number, CaseNumber a n number ∧ id = max (-idBound) (min number (idBound - 1)) := by
  have hkind : caseId? a n = some id ↔ ∃ test value, n.firstIn? .test = some test ∧
      a.kind? test = some (.numericLiteral value) ∧ stepId? value = some id := by
    rw [caseId?]
    constructor
    · intro h
      obtain ⟨test, htest, h⟩ := Option.bind_eq_some_iff.mp h
      obtain ⟨kind, hkind, h⟩ := Option.bind_eq_some_iff.mp h
      split at h
      · exact ⟨test, _, htest, hkind, h⟩
      · cases h
    · rintro ⟨test, value, htest, hkind, h⟩
      rw [htest, Option.bind_eq_bind, Option.bind_some, hkind]
      exact h
  rw [hkind]
  constructor
  · rintro ⟨test, value, htest, hvalue, h⟩
    obtain ⟨number, hnumber, rfl⟩ := Option.map_eq_some_iff.mp h
    exact ⟨number, ⟨test, value, htest, hvalue, Double.toInt?_eq_some_iff.mp hnumber⟩, rfl⟩
  · rintro ⟨number, ⟨test, value, htest, hvalue, hnumber⟩, rfl⟩
    refine ⟨test, value, htest, hvalue, ?_⟩
    rw [stepId?, Double.toInt?_eq_some_iff.mpr hnumber]
    rfl

/-- A case has a sequence if it tests an integer and has a statement in front of its first
    `break`. -/
theorem sequence?_eq_some_iff {s : Sequence} :
    sequence? a text n = some s ↔
      (∃ number, CaseNumber a n number ∧ s.id = max (-idBound) (min number (idBound - 1))) ∧
      s.steps = (beforeBreak a n).filterMap (stepAt a text) ∧ s.steps ≠ [] := by
  rw [← caseId?_eq_some_iff, beforeBreak, ← steps_eq_filterMap, sequence?]
  obtain ⟨id, ss⟩ := s
  cases caseId? a n with
  | none => simp
  | some number =>
    dsimp only [Option.bind_eq_bind, Option.bind_some]
    cases steps a text (n.allIn .consequent) <;> grind

theorem stepAt_shared {o : Outline} (h : Shares a a' text text' o) :
    stepAt a' text' o.place = stepAt a text o.place := by
  have hplace := o.place_mem_places
  rw [stepAt, stepAt, h.node?_eq hplace]
  cases hn : a.node? o.place with
  | none => rfl
  | some n => rw [Option.map_some, Option.map_some, step_shared h hplace hn]

/-- The sequence of a case depends on what it tests and on the statements in front of its first
    `break`, and on nothing else. -/
theorem sequence?_of_beforeBreak
    (htest : (n'.firstIn? .test).bind a'.kind? = (n.firstIn? .test).bind a.kind?)
    (hfront : beforeBreak a' n' = beforeBreak a n)
    (hshared : ∀ k ∈ beforeBreak a n, ∃ o : Outline, o.place = k ∧ Shares a a' text text' o) :
    sequence? a' text' n' = sequence? a text n := by
  have hid : caseId? a' n' = caseId? a n := by
    ext id
    simp only [caseId?_eq_some_iff, caseNumber_iff, htest]
  have hsteps : steps a' text' (n'.allIn .consequent) = steps a text (n.allIn .consequent) := by
    rw [steps_eq_filterMap, steps_eq_filterMap]
    change (beforeBreak a' n').filterMap _ = (beforeBreak a n).filterMap _
    rw [hfront]
    refine List.filterMap_congr fun k hk => ?_
    obtain ⟨o, rfl, ho⟩ := hshared k hk
    exact stepAt_shared ho
  rw [sequence?, sequence?, hid, hsteps]

/-- The sequence `found` of a case is made of what the case tests and of its statements in front of
    the first `break`, one step for each. -/
structure ReadsCase (a : Arena) (text : List Char) (n : Node) (found : Option Sequence) : Prop where
  isSome_iff : found.isSome ↔ (∃ number, CaseNumber a n number) ∧ beforeBreak a n ≠ []
  id : ∀ s ∈ found, ∃ number, CaseNumber a n number ∧
    s.id = max (-idBound) (min number (idBound - 1))
  steps : ∀ s ∈ found, List.Forall₂ (fun k st => ∃ m, a.node? k = some m ∧ st = step a text m k)
    (beforeBreak a n) s.steps
  /-- Nothing else matters: another case, perhaps of another arena and another text, that tests the
      same and has the same statements in front of its first `break` has the same sequence. -/
  front : ∀ (a' : Arena) (text' : List Char) (n' : Node),
    (n'.firstIn? .test).bind a'.kind? = (n.firstIn? .test).bind a.kind? →
    beforeBreak a' n' = beforeBreak a n →
    (∀ k ∈ beforeBreak a n, ∃ o : Outline, o.place = k ∧ Shares a a' text text' o) →
    sequence? a' text' n' = found

theorem forall₂_filterMap {α β : Type} {f : α → Option β} {xs : List α}
    (h : ∀ x ∈ xs, (f x).isSome) : List.Forall₂ (fun x y => f x = some y) xs (xs.filterMap f) := by
  induction xs with
  | nil => exact .nil
  | cons x xs ih =>
    obtain ⟨y, hy⟩ := Option.isSome_iff_exists.mp (h x List.mem_cons_self)
    rw [List.filterMap_cons_some hy]
    exact .cons hy (ih fun x hx => h x (List.mem_cons_of_mem _ hx))

theorem readsCase (hvalid : ∀ k ∈ n.allIn .consequent, (a.node? k).isSome) :
    ReadsCase a text n (sequence? a text n) := by
  have hsteps : List.Forall₂ (fun k st => stepAt a text k = some st) (beforeBreak a n)
      ((beforeBreak a n).filterMap (stepAt a text)) := by
    refine forall₂_filterMap fun k hk => ?_
    rw [stepAt, Option.isSome_map]
    exact hvalid k (List.takeWhile_subset _ hk)
  -- no statement is without a step, so there are no steps only if there are no statements
  have hempty : (beforeBreak a n).filterMap (stepAt a text) = [] ↔ beforeBreak a n = [] := by
    rw [← List.length_eq_zero_iff, ← hsteps.length_eq, List.length_eq_zero_iff]
  refine ⟨?_, ?_, ?_, fun a' text' n' => sequence?_of_beforeBreak⟩
  · rw [Option.isSome_iff_exists]
    simp only [sequence?_eq_some_iff]
    constructor
    · rintro ⟨s, ⟨number, hnumber, -⟩, hs, hne⟩
      exact ⟨⟨number, hnumber⟩, fun h => hne (hs.trans (hempty.mpr h))⟩
    · rintro ⟨⟨number, hnumber⟩, hne⟩
      exact ⟨⟨_, _⟩, ⟨number, hnumber, rfl⟩, rfl, fun h => hne (hempty.mp h)⟩
  · intro s hs
    exact (sequence?_eq_some_iff.mp hs).1
  · intro s hs
    rw [(sequence?_eq_some_iff.mp hs).2.1]
    refine hsteps.imp fun k st hst => ?_
    obtain ⟨m, hm, rfl⟩ := Option.map_eq_some_iff.mp hst
    exact ⟨m, hm, rfl⟩

end Cases

/-! ## Declarators -/

/-- The first binding of a declarator is the name. -/
def Binds (a : Arena) (n : Node) (name : String) : Prop :=
  ∃ binding, n.firstIn? .id = some binding ∧ a.kind? binding = some (.identifier name)

/-- The variable `found` of a declarator has the name that the declarator binds, if this is not the
    name of a control variable. -/
structure ReadsDeclarator (a : Arena) (n : Node) (found : Option Variable) : Prop where
  isSome_iff : found.isSome ↔ ∃ name, Binds a n name ∧ name.toList.head? ≠ some controlMark
  name : ∀ v ∈ found, Binds a n v.name

theorem readsDeclarator (a : Arena) (text : List Char) (n : Node) :
    ReadsDeclarator a n (declared? a text n) := by
  rw [declared?]
  cases hid : n.firstIn? .id with
  | none => constructor <;> simp [Binds, hid]
  | some id =>
    cases hbinding : a.node? id with
    | none => constructor <;> simp [Binds, hid, hbinding, Arena.kind?]
    | some binding =>
      have hbinds : ∀ name, Binds a n name ↔ binding.kind = .identifier name := by
        simp [Binds, hid, hbinding, Arena.kind?]
      rw [Option.bind_eq_bind, Option.bind_some, hbinding, Option.bind_eq_bind, Option.bind_some]
      constructor
      · simp only [hbinds]
        split <;> grind
      · simp only [hbinds]
        split <;> grind

/-! ## Charts -/

/-- A chart holds what the walk has found, the first one first. -/
theorem content_of_chart? {a : Arena} {text : List Char} {id : Nat} {c : Chart}
    (h : chart? a text id = some c) :
    c.vars = ((a.walk (contentVisitor a text) id).run {}).2.vars.reverse ∧
      c.body = ((a.walk (contentVisitor a text) id).run {}).2.body.reverse := by
  obtain ⟨n, -, h⟩ := Option.bind_eq_some_iff.mp h
  obtain ⟨identity, -, h⟩ := Option.bind_eq_some_iff.mp h
  rw [← Option.some.inj h]
  exact ⟨rfl, rfl⟩

/-- The chart of a node with a name has the sequences of the uncovered cases and the variables of
    the uncovered declarators at or below the node, both in the order in which the nodes are met on
    the way down. The text from which the chart is taken may be another one than the source that
    gave the nodes their comments. -/
theorem chart?_content (t : Tree) (source text : List Char) (id : Fin (ofTree t source).size)
    (n : Node) (hnode : (ofTree t source).node? id = some n) (hnamed : Named n) :
    ∃ (o : Outline) (c : Chart) (cases declarators : List Nat),
      (ofTree t source).Outlines o ∧ o.place = id ∧ o.places.Nodup ∧
      chart? (ofTree t source) text id = some c ∧
      cases.Sublist o.places ∧
      (∀ k, k ∈ cases ↔ Uncovered (ofTree t source) id .switchCase k) ∧
      c.body = cases.filterMap (sequenceAt (ofTree t source) text) ∧
      (∀ k ∈ cases, ∃ m, (ofTree t source).node? k = some m ∧
        ReadsCase (ofTree t source) text m (sequenceAt (ofTree t source) text k)) ∧
      declarators.Sublist o.places ∧
      (∀ k, k ∈ declarators ↔ Uncovered (ofTree t source) id .variableDeclarator k) ∧
      c.vars = declarators.filterMap (variableAt (ofTree t source) text) ∧
      ∀ k ∈ declarators, ∃ m, (ofTree t source).node? k = some m ∧
        ReadsDeclarator (ofTree t source) m (variableAt (ofTree t source) text k) := by
  obtain ⟨o, ho, hplace, hnodup, hsize⟩ := Arena.exists_outline t source id.isLt
  obtain ⟨c, hc⟩ := Option.isSome_iff_exists.mp ((isSome_chart?_iff hnode text).mpr hnamed)
  have hlt : o.place < (ofTree t source).size := hplace ▸ id.isLt
  have hmem : ∀ kind, isContent kind = true → ∀ k, k ∈ found o kind ↔
      Uncovered (ofTree t source) id kind k := by
    intro kind hkind k
    rw [mem_found_iff ho hlt hkind, hplace]
  have hexists : ∀ kind, ∀ k ∈ found o kind, ∃ m, (ofTree t source).node? k = some m := by
    intro kind k hk
    obtain ⟨o', ho', rfl⟩ := List.mem_map.mp hk
    exact ⟨_, (ho.of_mem_outermost (List.mem_filter.mp ho').1).node?_eq⟩
  obtain ⟨hvars, hbody⟩ := content_of_chart? hc
  have hwalk := walk_contentVisitor ho hsize text
  rw [hplace] at hwalk
  rw [hwalk, List.reverse_reverse] at hvars hbody
  refine ⟨o, c, found o .switchCase, found o .variableDeclarator, ho, hplace, hnodup, hc,
    found_sublist o _, hmem _ rfl, hbody, ?_, found_sublist o _, hmem _ rfl, hvars, ?_⟩
  · intro k hk
    obtain ⟨m, hm⟩ := hexists _ k hk
    refine ⟨m, hm, ?_⟩
    rw [sequenceAt, hm]
    refine readsCase fun j hj => ?_
    have hj := Arena.lt_size_of_mem_below (Arena.mem_below_of_mem_allIn hm hj)
    exact Option.isSome_iff_exists.mpr ⟨_, Array.getElem?_eq_getElem hj⟩
  · intro k hk
    obtain ⟨m, hm⟩ := hexists _ k hk
    refine ⟨m, hm, ?_⟩
    rw [variableAt, hm]
    exact readsDeclarator _ text m

/-- The tree of a function with a control variable, a variable and three cases. The first case lies
    in the value of the variable, a statement follows the `break` of the second one, and the third
    one has nothing but a `break`. -/
def switchFlow : Tree where
  kind := .module
  span := { start := 1, stop := 92 }
  fields := [(.body, .node .functionDeclaration { start := 35, stop := 92 } [
    (.children, .node .variableDeclarator { start := 37, stop := 39 }
      [(.id, .leaf (.identifier "$w") { start := 37, stop := 39 })]),
    (.children, .node .variableDeclarator { start := 45, stop := 61 } [
      (.id, .leaf (.identifier "y") { start := 45, stop := 46 }),
      (.init, .node .switchCase { start := 52, stop := 60 } [
        (.test, .leaf (.numericLiteral (.finite false 1 2)) { start := 57, stop := 58 }),
        (.consequent, .leaf (.identifier "z") { start := 59, stop := 60 })])]),
    (.body, .list [
      .node .switchCase { start := 62, stop := 79 } [
        (.test, .leaf (.numericLiteral (.finite false 1 0)) { start := 67, stop := 68 }),
        (.consequent, .list [
          .leaf (.identifier "x") { start := 69, stop := 70 },
          .leaf .breakStatement { start := 71, stop := 77 },
          .leaf (.identifier "z") { start := 77, stop := 78 }])],
      .node .switchCase { start := 79, stop := 91 } [
        (.test, .leaf (.numericLiteral (.finite false 1 1)) { start := 84, stop := 85 }),
        (.consequent, .leaf .breakStatement { start := 86, stop := 91 })]])])]

/-- The source of the function. -/
def switchFlowSource : String :=
  "//@codeflow id i @codeflow name n\n" ++
    "f($w)\x7blet y=()=>\x7bcase 4:z\x7d;case 1:x;break;z;case 2:break\x7d"

/-- One case gives a sequence, of one step, and one declarator a variable. -/
theorem chart?_switchFlow :
    ((chart? (ofTree switchFlow switchFlowSource.toList) switchFlowSource.toList 1).map fun c =>
      (c.body.map fun s => (s.id, s.steps.map (·.code)), c.vars.map (·.name))) =
      some ([(1, [some "x"])], ["y"]) := by
  -- the nodes are sorted first, which the kernel does not do by itself; it is needed for numbers
  conv_lhs =>
    arg 2
    arg 1
    cbv
  decide +kernel

theorem switchFlow_content :
    ∃ n, (ofTree switchFlow switchFlowSource.toList).node? 1 = some n ∧ Named n ∧
    ∃ (c : Chart) (cases declarators : List Nat),
      chart? (ofTree switchFlow switchFlowSource.toList) switchFlowSource.toList 1 = some c ∧
      (∀ k, k ∈ cases ↔
        Uncovered (ofTree switchFlow switchFlowSource.toList) 1 .switchCase k) ∧
      c.body = cases.filterMap
        (sequenceAt (ofTree switchFlow switchFlowSource.toList) switchFlowSource.toList) ∧
      (∀ k, k ∈ declarators ↔
        Uncovered (ofTree switchFlow switchFlowSource.toList) 1 .variableDeclarator k) ∧
      c.vars = declarators.filterMap
        (variableAt (ofTree switchFlow switchFlowSource.toList) switchFlowSource.toList) ∧
      (c.body.map fun s => (s.id, s.steps.map (·.code))) = [(1, [some "x"])] ∧
      c.vars.map (·.name) = ["y"] := by
  obtain ⟨c, hc, hvalue⟩ := Option.map_eq_some_iff.mp chart?_switchFlow
  obtain ⟨n, hnode, -⟩ := Option.bind_eq_some_iff.mp hc
  have hnamed := (chart?_eq_some hnode hc).1
  obtain ⟨o, c', cases, declarators, -, -, -, hc', -, hcases, hbody, -, -, hdeclarators, hvars,
      -⟩ :=
    chart?_content switchFlow switchFlowSource.toList switchFlowSource.toList
      ⟨1, (Array.getElem?_eq_some_iff.mp hnode).1⟩ n hnode hnamed
  obtain rfl : c = c' := Option.some.inj (hc.symm.trans hc')
  obtain ⟨hsequences, hnames⟩ := Prod.mk.inj hvalue
  exact ⟨n, hnode, hnamed, c, cases, declarators, hc, hcases, hbody, hdeclarators, hvars,
    hsequences, hnames⟩

end Flow

end Stepflow
