import Mathlib
import Stepflow.Proofs.Assignment

/-!
# What the search for an edge accepts

The search counts its visits. It goes down as long as every node comes at the turn of its kind, so
up to the first miss it has left out nothing, and a miss is never made good. It therefore accepts a
place if and only if the kinds of the nodes there, each node before those below it, are those of
`$test && ($next = 4)` or of one of its variants.

* `Outline.kinds`: the kinds of an outline in the order of a walk.
* `Expected`: the kinds that may come at a turn.
* `InTurn`: kinds that come one after the other, each at its turn.
* `edgeKinds`, `edgeStep`: the kinds of an edge, and the step that it stands for.

Results:
* `walk_decisionVisitor`: a walk in turn takes note of all kinds, any other walk misses.
* `inTurn_iff_edgeKinds`: six kinds are in turn if and only if they are those of an edge.
* `decision_iff_edgeKinds`: what the search answers, by the kinds at and below a place.
-/

namespace Stepflow

namespace Outline

mutual

/-- The kinds of the nodes of an outline, each before those below it. -/
def kinds : Outline → List Kind
  | ⟨_, n, parts⟩ => n.kind :: kindsAll parts

/-- The kinds of outlines that follow each other. -/
def kindsAll : List Outline → List Kind
  | [] => []
  | o :: os => o.kinds ++ kindsAll os

end

end Outline

namespace Flow

open Outline (walkAll kindsAll)

/-! ## Turns -/

/-- The control variable of a route. -/
def Route.variable (route : Route) : String :=
  "$" ++ route.key

/-- The kinds that may come at a turn. -/
inductive Expected : Nat → Kind → Prop
  | operator (mode : Mode) : Expected 0 (.binaryExpression mode.operator)
  | test : Expected 1 (.identifier "$test")
  | parenthesis : Expected 2 .parenthesisExpression
  | assignment (operator : String) : Expected 3 (.assignmentExpression operator)
  | route (route : Route) : Expected 4 (.identifier route.variable)
  | target (value : Double) : Expected 5 (.numericLiteral value)

/-- The turn at which the search waits for a kind. -/
def turnOf : Kind → Option Nat
  | .binaryExpression operator => (Mode.ofOperator? operator).map fun _ => 0
  | .identifier name =>
    if name = testVariable then some 1 else (Route.ofVariable? name).map fun _ => 4
  | .parenthesisExpression => some 2
  | .assignmentExpression _ => some 3
  | .numericLiteral _ => some 5
  | _ => none

/-- What the search takes note of when it visits a node, at whatever turn. -/
def DecisionState.note (s : DecisionState) : Kind → DecisionState
  | .binaryExpression operator => { s with mode := (Mode.ofOperator? operator).or s.mode }
  | .identifier name =>
    if name = testVariable then s else { s with route := (Route.ofVariable? name).or s.route }
  | .numericLiteral value => { s with target := value }
  | _ => s

theorem ofVariable?_eq_some_iff {name : String} {route : Route} :
    Route.ofVariable? name = some route ↔ name = route.variable := by
  constructor
  · intro h
    unfold Route.ofVariable? at h
    split at h <;> cases h <;> decide
  · rintro rfl
    cases route <;> decide

theorem variable_ne_testVariable (route : Route) : route.variable ≠ testVariable := by
  cases route <;> decide

theorem turnOf_eq_some_iff {kind : Kind} {turn : Nat} :
    turnOf kind = some turn ↔ Expected turn kind := by
  constructor
  · intro h
    unfold turnOf at h
    split at h
    · obtain ⟨mode, hmode, rfl⟩ := Option.map_eq_some_iff.mp h
      rw [Mode.ofOperator?_eq_some_iff.mp hmode]
      exact .operator mode
    · split_ifs at h with htest
      · cases h
        rw [htest]
        exact .test
      · obtain ⟨route, hroute, rfl⟩ := Option.map_eq_some_iff.mp h
        rw [ofVariable?_eq_some_iff.mp hroute]
        exact .route route
    · cases h
      exact .parenthesis
    · cases h
      exact .assignment _
    · cases h
      exact .target _
    · cases h
  · intro h
    cases h with
    | operator mode => simp only [turnOf, Mode.ofOperator?_eq_some_iff.mpr rfl, Option.map_some]
    | route route =>
      simp only [turnOf, if_neg (variable_ne_testVariable route),
        ofVariable?_eq_some_iff.mpr rfl, Option.map_some]
    | test | parenthesis | assignment | target => rfl

/-- One visit: the node is noted, and counted against the turn of its kind. -/
theorem dispatch_decisionVisitor (kind : Kind) (id : Nat) (s : DecisionState) :
    (decisionVisitor.dispatch kind id).run s =
      ((s.turn.advance (turnOf kind)).1,
        { s.note kind with turn := (s.turn.advance (turnOf kind)).2 }) := by
  cases kind with
  | binaryExpression operator =>
    simp only [Visitor.dispatch, Visitor.handler, decisionVisitor, turnOf, DecisionState.note]
    cases Mode.ofOperator? operator <;> rfl
  | identifier name =>
    simp only [Visitor.dispatch, Visitor.handler, decisionVisitor, turnOf, DecisionState.note]
    split_ifs
    · rfl
    · cases Route.ofVariable? name <;> rfl
  | _ => rfl

/-! ## Walks -/

/-- The kinds come one after the other, each at its turn, from the given turn on. -/
def InTurn : Nat → List Kind → Prop
  | _, [] => True
  | turn, kind :: kinds => Expected turn kind ∧ InTurn (turn + 1) kinds

theorem inTurn_append {turn : Nat} {ks ls : List Kind} :
    InTurn turn (ks ++ ls) ↔ InTurn turn ks ∧ InTurn (turn + ks.length) ls := by
  induction ks generalizing turn with
  | nil => simp [InTurn]
  | cons k ks ih =>
    rw [List.cons_append, InTurn, InTurn, ih, List.length_cons, and_assoc]
    simp only [Nat.add_assoc, Nat.add_comm 1]

/-- What a visit at the right turn does. -/
def DecisionState.visit (s : DecisionState) (kind : Kind) : DecisionState :=
  { s.note kind with turn := { count := s.turn.count + 1, missed := false } }

theorem turn_foldl_visit (kinds : List Kind) {s : DecisionState} (hs : s.turn.missed = false) :
    (kinds.foldl DecisionState.visit s).turn =
      { count := s.turn.count + kinds.length, missed := false } := by
  induction kinds generalizing s with
  | nil =>
    rw [List.foldl_nil, List.length_nil, Nat.add_zero, ← hs]
  | cons kind kinds ih =>
    rw [List.foldl_cons, ih rfl, List.length_cons]
    simp only [DecisionState.visit, Nat.add_assoc, Nat.add_comm 1]

/-- The state `s'` behind visits of some kinds, where `s` is the state before them: if nothing was
    missed before and the kinds come in turn, all of them were noted; otherwise there is a miss. -/
structure Follows (s : DecisionState) (kinds : List Kind) (s' : DecisionState) : Prop where
  noted : s.turn.missed = false → InTurn s.turn.count kinds →
    s' = kinds.foldl DecisionState.visit s
  missed : ¬ (s.turn.missed = false ∧ InTurn s.turn.count kinds) → s'.turn.missed = true

/-- One run of visits after the other. -/
theorem Follows.append {s s' s'' : DecisionState} {ks ls : List Kind} (h : Follows s ks s')
    (h' : Follows s' ls s'') : Follows s (ks ++ ls) s'' := by
  constructor
  · intro hs hturn
    obtain ⟨hks, hls⟩ := inTurn_append.mp hturn
    have hs' := h.noted hs hks
    have hturn' := turn_foldl_visit ks hs
    rw [← hs'] at hturn'
    rw [List.foldl_append, ← hs']
    exact h'.noted (by rw [hturn']) (by rw [hturn']; exact hls)
  · intro hmiss
    apply h'.missed
    rintro ⟨hs', hls⟩
    -- Without a miss the first run was in turn, so the second one was not.
    have hfirst : s.turn.missed = false ∧ InTurn s.turn.count ks := by
      by_contra hfirst
      rw [h.missed hfirst] at hs'
      cases hs'
    rw [h.noted hfirst.1 hfirst.2, turn_foldl_visit ks hfirst.1] at hls
    exact hmiss ⟨hfirst.1, inTurn_append.mpr ⟨hfirst.2, hls⟩⟩

mutual

/-- A walk in turn takes note of all kinds, any other walk misses. -/
theorem walk_decisionVisitor : ∀ (o : Outline) (s : DecisionState),
    Follows s o.kinds ((o.walk decisionVisitor).run s).2
  | ⟨id, n, parts⟩, s => by
    rw [Outline.walk_run, dispatch_decisionVisitor, Outline.kinds, ← List.singleton_append]
    dsimp only
    by_cases hhit : s.turn.missed = false ∧ turnOf n.kind = some s.turn.count
    · have hadvance := advance_of_eq hhit.1
      rw [hhit.2, hadvance]
      refine Follows.append ⟨fun _ _ => rfl, ?_⟩ (walkAll_decisionVisitor parts _)
      intro hmiss
      exact absurd ⟨hhit.1, turnOf_eq_some_iff.mp hhit.2, trivial⟩ hmiss
    · have hadvance : s.turn.advance (turnOf n.kind) =
          (false, { count := s.turn.count + 1, missed := true }) := by
        have hfalse : (!s.turn.missed && turnOf n.kind == some s.turn.count) = false := by
          simpa using hhit
        rw [Turn.advance, hfalse]
        rfl
      rw [hadvance]
      constructor
      · intro hs hturn
        exact absurd ⟨hs, turnOf_eq_some_iff.mpr hturn.1⟩ hhit
      · intro _
        rfl

theorem walkAll_decisionVisitor : ∀ (os : List Outline) (s : DecisionState),
    Follows s (kindsAll os) ((walkAll decisionVisitor os).run s).2
  | [], s => by
    rw [Outline.walkAll_nil, kindsAll]
    refine ⟨fun _ _ => rfl, ?_⟩
    intro hmiss
    simpa [InTurn] using hmiss
  | o :: os, s => by
    rw [Outline.walkAll_cons, kindsAll]
    exact (walk_decisionVisitor o s).append (walkAll_decisionVisitor os _)

end

/-! ## Edges -/

/-- The kinds of an edge, each node before those below it. -/
def edgeKinds (mode : Mode) (operator : String) (route : Route) (value : Double) : List Kind :=
  [.binaryExpression mode.operator, .identifier "$test", .parenthesisExpression,
    .assignmentExpression operator, .identifier route.variable, .numericLiteral value]

/-- The step that holds an edge under its route, and nothing else. -/
def edgeStep (route : Route) (edge : Edge) : Step where
  code := none
  assign := none
  fail := if route = .fail then some edge else none
  last := if route = .last then some edge else none
  next := if route = .next then some edge else none
  name := none
  info := none
  px := none

/-- No more than six kinds are in turn, and six are those of an edge. -/
theorem inTurn_iff_edgeKinds {kinds : List Kind} :
    InTurn 0 kinds ∧ 6 ≤ kinds.length ↔
      ∃ mode operator route value, kinds = edgeKinds mode operator route value := by
  constructor
  · rintro ⟨hturn, hlength⟩
    match kinds, hlength, hturn with
    | [_, _, _, _, _, _], _, ⟨h0, h1, h2, h3, h4, h5, _⟩ =>
      cases h0 with | operator mode =>
      cases h1
      cases h2
      cases h3 with | assignment operator =>
      cases h4 with | route route =>
      cases h5 with | target value =>
      exact ⟨mode, operator, route, value, rfl⟩
    | _ :: _ :: _ :: _ :: _ :: _ :: _ :: _, _, ⟨_, _, _, _, _, _, h6, _⟩ => cases h6
  · rintro ⟨mode, operator, route, value, rfl⟩
    exact ⟨⟨.operator mode, .test, .parenthesis, .assignment operator, .route route,
      .target value, trivial⟩, Nat.le_refl 6⟩

theorem step?_edgeKinds (mode : Mode) (operator : String) (route : Route) (value : Double) :
    ((edgeKinds mode operator route value).foldl DecisionState.visit {}).step? =
      some (edgeStep route { target := value, mode := mode }) := by
  cases mode <;> cases route <;> rfl

/-- The answer of the search, by the kinds that a walk in full would meet. -/
theorem Follows.step?_eq_some_iff {kinds : List Kind} {s : DecisionState}
    (h : Follows {} kinds s) (step : Step) :
    s.step? = some step ↔ ∃ mode operator route value,
      kinds = edgeKinds mode operator route value ∧
        step = edgeStep route { target := value, mode := mode } := by
  constructor
  · intro hstep
    have hend : ¬ (s.turn.missed = true ∨ s.turn.count < 6) := by
      intro hend
      rw [DecisionState.step?, if_pos hend] at hstep
      cases hstep
    obtain ⟨hmissed, hcount⟩ := not_or.mp hend
    have hturn : InTurn 0 kinds := by
      by_contra hturn
      exact hmissed (h.missed fun hboth => hturn hboth.2)
    have hs := h.noted rfl hturn
    have hlength : 6 ≤ kinds.length := by
      rw [hs, turn_foldl_visit kinds rfl] at hcount
      simpa using hcount
    obtain ⟨mode, operator, route, value, rfl⟩ := inTurn_iff_edgeKinds.mp ⟨hturn, hlength⟩
    rw [hs, step?_edgeKinds] at hstep
    exact ⟨mode, operator, route, value, rfl, (Option.some.inj hstep).symm⟩
  · rintro ⟨mode, operator, route, value, rfl, rfl⟩
    have hturn := (inTurn_iff_edgeKinds.mpr ⟨mode, operator, route, value, rfl⟩).1
    rw [h.noted rfl hturn, step?_edgeKinds]

/-- At every place the search answers a step if and only if the nodes at and below the place, each
    before those below it, have the kinds of an edge and no others come. The step then holds that
    edge and nothing else. -/
theorem decision_iff_edgeKinds (t : Tree) (source : List Char)
    (id : Fin (Arena.ofTree t source).size) :
    ∃ o : Outline, (Arena.ofTree t source).Outlines o ∧ o.place = id ∧
      ∀ step, decision? (Arena.ofTree t source) id = some step ↔
        ∃ mode operator route value, o.kinds = edgeKinds mode operator route value ∧
          step = edgeStep route { target := value, mode := mode } := by
  obtain ⟨o, ho, hplace, -, hsize⟩ := Arena.exists_outline t source id.isLt
  refine ⟨o, ho, hplace, fun step => ?_⟩
  have hwalk := walk_decisionVisitor o {}
  rw [← Arena.walk_eq_outline_walk ho hsize, hplace] at hwalk
  exact hwalk.step?_eq_some_iff step

end Flow

end Stepflow
