import Mathlib
import Stepflow.Flow.OfArena
import Stepflow.Proofs.Decision

/-!
# The operators of assignments

A visitor is not told the operator of an assignment, so no walk depends on it. A compound assignment
such as `x += f()` is read like the simple one `x = f()`, and `$test && ($next += 4)` like the edge
`$test && ($next = 4)`.

* `Kind.simple`, `Arena.simple`: every assignment is made a simple one.

Results:
* `Arena.walk_simple`: no walk depends on the operators of assignments.
* `Flow.charts_simple`: the charts of an arena do not depend on them either.
* `Flow.compound_unread_iff`: when the searches find nothing in an assignment.
* `Flow.compound_read`: they find something in compound ones.
-/

namespace Stepflow

/-! ## Walks -/

/-- The kind, with the operator of a simple assignment for that of any assignment. -/
def Kind.simple : Kind → Kind
  | .assignmentExpression _ => .assignmentExpression "="
  | kind => kind

/-- The node, as a simple assignment if it is an assignment. -/
def Node.simple (n : Node) : Node :=
  { n with kind := n.kind.simple }

theorem Visitor.dispatch_simple {σ : Type} (v : Visitor σ) (kind : Kind) (id : Nat) :
    v.dispatch kind.simple id = v.dispatch kind id := by
  cases kind <;> rfl

namespace Arena

/-- The arena, with every assignment made a simple one. -/
def simple (a : Arena) : Arena where
  nodes := a.nodes.map Node.simple

variable (a : Arena) (source : List Char) (id : Nat)

@[simp] theorem size_simple : a.simple.size = a.size :=
  Array.size_map

@[simp] theorem node?_simple : a.simple.node? id = (a.node? id).map Node.simple :=
  Array.getElem?_map

@[simp] theorem kind?_simple : a.simple.kind? id = (a.kind? id).map Kind.simple := by
  rw [kind?, kind?, node?_simple]
  cases a.node? id <;> rfl

@[simp] theorem below_simple : a.simple.below id = a.below id := by
  rw [below, below, node?_simple]
  cases a.node? id <;> rfl

@[simp] theorem root?_simple : a.simple.root? = a.root? := by
  rw [root?, root?, size_simple]

@[simp] theorem text_simple : a.simple.text source id = a.text source id := by
  rw [text, text, node?_simple]
  cases a.node? id <;> rfl

theorem walkFrom_simple {σ : Type} (v : Visitor σ) (visits : Nat) (waiting : List Nat) :
    a.simple.walkFrom v visits waiting = a.walkFrom v visits waiting := by
  induction visits generalizing waiting with
  | zero => rw [walkFrom, walkFrom]
  | succ visits ih =>
    cases waiting with
    | nil => rw [walkFrom, walkFrom]
    | cons id waiting =>
      rw [walkFrom, walkFrom, node?_simple]
      cases a.node? id with
      | none => exact ih waiting
      | some n =>
        dsimp only [Option.map_some, Node.simple]
        rw [v.dispatch_simple, ih, ih]

/-- No visitor can tell the operator of an assignment. -/
@[simp] theorem walk_simple {σ : Type} (v : Visitor σ) : a.simple.walk v id = a.walk v id := by
  rw [walk, walk, size_simple, walkFrom_simple]

end Arena

/-! ## Charts -/

namespace Flow

open Arena (ofTree)

section Simple

variable (a : Arena) (source : List Char) (n : Node) (id : Nat)

theorem decision?_simple : decision? a.simple id = decision? a id := by
  rw [decision?, decision?, Arena.walk_simple]

theorem assignment_simple : assignment a.simple id = assignment a id := by
  rw [assignment, assignment, Arena.walk_simple]

theorem codeStep_simple : codeStep a.simple source n.simple id = codeStep a source n id := by
  rw [codeStep, codeStep, assignment_simple]
  dsimp only
  rw [Arena.text_simple]
  rfl

/-- The step of a statement does not depend on the operators of assignments. -/
theorem step_simple : step a.simple source n.simple id = step a source n id := by
  have hsubject : subject n.simple id = subject n id := by
    obtain ⟨kind, span, nodes, fields, comment, indentation⟩ := n
    cases kind <;> rfl
  rw [step, step, hsubject, decision?_simple, codeStep_simple]
  rfl

theorem steps_simple (ids : List Nat) : steps a.simple source ids = steps a source ids := by
  induction ids with
  | nil => rfl
  | cons id ids ih =>
    rw [steps, steps, Arena.node?_simple]
    cases a.node? id with
    | none => exact ih
    | some n =>
      have hbreak : n.simple.kind = .breakStatement ↔ n.kind = .breakStatement := by
        rw [Node.simple]
        cases n.kind <;> simp [Kind.simple]
      dsimp only [Option.map_some]
      simp only [hbreak, ih, step_simple]

theorem caseId?_simple : caseId? a.simple n.simple = caseId? a n := by
  have hfields : n.simple.firstIn? .test = n.firstIn? .test := rfl
  rw [caseId?, caseId?, hfields]
  cases n.firstIn? .test with
  | none => rfl
  | some test =>
    dsimp only [Option.bind_eq_bind, Option.bind_some]
    rw [Arena.kind?_simple]
    cases a.kind? test with
    | none => rfl
    | some kind => cases kind <;> rfl

theorem sequence?_simple : sequence? a.simple source n.simple = sequence? a source n := by
  have hfields : n.simple.allIn .consequent = n.allIn .consequent := rfl
  rw [sequence?, sequence?, caseId?_simple, hfields, steps_simple]

theorem initial?_simple (kind : Kind) : initial? kind.simple = initial? kind := by
  cases kind <;> rfl

theorem typeText?_simple : typeText? a.simple source id = typeText? a source id := by
  rw [typeText?, typeText?, Arena.below_simple]
  cases (a.below id).head? with
  | none => rfl
  | some first =>
    dsimp only [Option.bind_eq_bind, Option.bind_some]
    rw [Arena.node?_simple]
    cases a.node? first with
    | none => rfl
    | some m =>
      dsimp only [Option.map_some, Option.bind_some]
      cases (a.below id).getLast? with
      | none => rfl
      | some last =>
        dsimp only [Option.bind_some]
        rw [Arena.node?_simple]
        cases a.node? last <;> rfl

theorem declared?_simple : declared? a.simple source n.simple = declared? a source n := by
  have hfields : ∀ f, n.simple.firstIn? f = n.firstIn? f := fun _ => rfl
  have hinit : ((n.firstIn? .init).bind a.simple.kind?).bind initial? =
      ((n.firstIn? .init).bind a.kind?).bind initial? := by
    cases n.firstIn? .init with
    | none => rfl
    | some init =>
      rw [Option.bind_some, Option.bind_some, Arena.kind?_simple]
      cases a.kind? init with
      | none => rfl
      | some kind => exact initial?_simple kind
  have htype : typeText? a.simple source = typeText? a source :=
    funext fun id => typeText?_simple a source id
  rw [declared?, declared?, hfields, hfields, hinit, htype]
  cases n.firstIn? .id with
  | none => rfl
  | some binding =>
    dsimp only [Option.bind_eq_bind, Option.bind_some]
    rw [Arena.node?_simple]
    cases a.node? binding with
    | none => rfl
    | some m =>
      obtain ⟨kind, span, nodes, fields, comment, indentation⟩ := m
      cases kind <;> rfl

theorem contentVisitor_simple : contentVisitor a.simple source = contentVisitor a source := by
  have hsequence : ∀ id, (a.simple.node? id).bind (sequence? a.simple source) =
      (a.node? id).bind (sequence? a source) := by
    intro id
    rw [Arena.node?_simple]
    cases a.node? id with
    | none => rfl
    | some n => exact sequence?_simple a source n
  have hvariable : ∀ id, (a.simple.node? id).bind (declared? a.simple source) =
      (a.node? id).bind (declared? a source) := by
    intro id
    rw [Arena.node?_simple]
    cases a.node? id with
    | none => rfl
    | some n => exact declared?_simple a source n
  simp only [contentVisitor, hsequence, hvariable]

theorem chart?_simple : chart? a.simple source id = chart? a source id := by
  rw [chart?, chart?, Arena.node?_simple, contentVisitor_simple, Arena.walk_simple,
    Arena.text_simple]
  cases a.node? id <;> rfl

/-- The charts of an arena do not depend on the operators of assignments. -/
theorem charts_simple : charts a.simple source = charts a source := by
  have hvisitor : chartVisitor a.simple source = chartVisitor a source := by
    have hcollect : collect a.simple source = collect a source := by
      funext id
      rw [collect, collect, chart?_simple]
    rw [chartVisitor, chartVisitor, hcollect]
  rw [charts, charts, Arena.root?_simple, hvisitor]
  cases a.root? with
  | none => rfl
  | some root =>
    dsimp only
    rw [Arena.walk_simple]

end Simple

/-! ## Compound assignments -/

section Tree

variable (t : Tree) (source : List Char)

/-- With an assignment among the kinds, the search for an edge finds nothing if the kinds are not
    those of an edge with the operator of the assignment. -/
theorem Follows.step?_eq_none_iff {kinds : List Kind} {s : DecisionState} (h : Follows {} kinds s)
    {operator : String} (hmem : .assignmentExpression operator ∈ kinds) :
    s.step? = none ↔ ∀ mode route value, kinds ≠ edgeKinds mode operator route value := by
  constructor
  · rintro hnone mode route value rfl
    have hsome := (h.step?_eq_some_iff _).mpr ⟨mode, operator, route, value, rfl, rfl⟩
    rw [hnone] at hsome
    cases hsome
  · intro hne
    rw [Option.eq_none_iff_forall_ne_some]
    intro step hstep
    obtain ⟨mode, operator', route, value, rfl, -⟩ := (h.step?_eq_some_iff step).mp hstep
    -- an edge has only one assignment
    obtain rfl : operator = operator' := by simpa [edgeKinds] using hmem
    exact hne mode route value rfl

/-- At an assignment, the search for a name and a value finds nothing if it gives up, or if there is
    neither. -/
theorem assignment_eq_self_iff {id : Nat} (hid : id < (ofTree t source).size)
    (hrole : roleAt (ofTree t source) id = .assignment) :
    assignment (ofTree t source) id = ("", id) ↔
      ¬ Readable (ofTree t source) (operands (ofTree t source) id) ∨
      (names (ofTree t source) (operands (ofTree t source) id)).headD "" = "" ∧
        others (ofTree t source) (operands (ofTree t source) id) = [] := by
  have hself := notMem_operands t source hid
  rw [assignment_eq t source hid, if_pos hrole, reading]
  split
  · next hread =>
    have hlast : (others (ofTree t source) (operands (ofTree t source) id)).getLastD id = id ↔
        others (ofTree t source) (operands (ofTree t source) id) = [] := by
      rw [List.getLastD_eq_getLast?]
      cases hlast : (others (ofTree t source) (operands (ofTree t source) id)).getLast? with
      | none => exact iff_of_true rfl (List.getLast?_eq_none_iff.mp hlast)
      | some value =>
        have hmem := List.mem_of_getLast? hlast
        refine iff_of_false ?_ (List.ne_nil_of_mem hmem)
        intro (heq : value = id)
        exact hself (heq ▸ (List.mem_filter.mp hmem).1)
    rw [Prod.mk.injEq, hlast]
    simp only [hread, not_true, false_or]
  · next hread => exact iff_of_true rfl (.inl hread)

/-- What is found where an assignment stands. No search asks for its operator, so for a compound
    assignment the conditions are those for a simple one: the search for an edge finds nothing if
    the kinds at and below the place are not those of an edge, whatever its operator, and the
    search for a name and a value finds nothing if it gives up or if there is neither. With all
    assignments made simple ones the searches, the steps and the charts stay the same. -/
theorem compound_unread_iff (id : Fin (ofTree t source).size) :
    ∃ o : Outline, (ofTree t source).Outlines o ∧ o.place = id ∧
      (∀ operator, .assignmentExpression operator ∈ o.kinds →
        (decision? (ofTree t source) id = none ↔
          ∀ mode route value, o.kinds ≠ edgeKinds mode operator route value)) ∧
      (∀ operator, o.node.kind = .assignmentExpression operator →
        (assignment (ofTree t source) id = ("", id.1) ↔
          ¬ Readable (ofTree t source) (operands (ofTree t source) id) ∨
          (names (ofTree t source) (operands (ofTree t source) id)).headD "" = "" ∧
            others (ofTree t source) (operands (ofTree t source) id) = [])) ∧
      decision? (ofTree t source).simple id = decision? (ofTree t source) id ∧
      assignment (ofTree t source).simple id = assignment (ofTree t source) id ∧
      step (ofTree t source).simple source o.node.simple id =
        step (ofTree t source) source o.node id ∧
      charts (ofTree t source).simple source = charts (ofTree t source) source := by
  obtain ⟨o, ho, hplace, -, hsize⟩ := Arena.exists_outline t source id.isLt
  have hwalk := walk_decisionVisitor o {}
  rw [← Arena.walk_eq_outline_walk ho hsize, hplace] at hwalk
  refine ⟨o, ho, hplace, fun operator hmem => hwalk.step?_eq_none_iff hmem, ?_,
    decision?_simple _ _, assignment_simple _ _, step_simple _ _ _ _, charts_simple _ _⟩
  intro operator hkind
  refine assignment_eq_self_iff t source id.isLt ?_
  rw [← hplace, roleAt_place ho, hkind]
  rfl

end Tree

/-- The tree of `$test && ($next += 4)`. -/
def compoundEdge : Tree where
  kind := .binaryExpression "&&"
  span := { start := 1, stop := 22 }
  fields := [(.left, .leaf (.identifier "$test") { start := 1, stop := 6 }),
    (.right, .node .parenthesisExpression { start := 10, stop := 22 }
      [(.children, .node (.assignmentExpression "+=") { start := 11, stop := 21 }
        [(.left, .leaf (.identifier "$next") { start := 11, stop := 16 }),
        (.right, .leaf (.numericLiteral (.finite false (2 ^ 52) (-50)))
          { start := 20, stop := 21 })])])]

/-- The tree of an assignment of `f()` to `x`. -/
def callAssignment (operator : String) : Tree where
  kind := .assignmentExpression operator
  span := { start := 1, stop := operator.length + 5 }
  fields := [(.left, .leaf (.identifier "x") { start := 1, stop := 2 }),
    (.right, .leaf (.other "CallExpression")
      { start := operator.length + 2, stop := operator.length + 5 })]

/-- `$test && ($next += 4)` is an edge to 4, its assignment has a name and a value, and `x+=f()` has
    the step of `x=f()`. -/
theorem compound_read :
    (ofTree compoundEdge "$test && ($next += 4)".toList).kind? 3 =
      some (.assignmentExpression "+=") ∧
    decision? (ofTree compoundEdge "$test && ($next += 4)".toList) 0 =
      some (edgeStep .next { target := .finite false (2 ^ 52) (-50), mode := .holds }) ∧
    assignment (ofTree compoundEdge "$test && ($next += 4)".toList) 3 = ("$next", 5) ∧
    steps (ofTree (callAssignment "+=") "x+=f()".toList) "x+=f()".toList [0] =
      steps (ofTree (callAssignment "=") "x=f()".toList) "x=f()".toList [0] := by
  refine ⟨by cbv, ?_, by cbv, by cbv⟩
  -- the nodes are sorted first, which the kernel does not do by itself; it is needed for numbers
  conv_lhs =>
    arg 1
    cbv
  decide +kernel

end Flow

end Stepflow
