import Mathlib
import Stepflow.Proofs.Assignment
import Stepflow.Proofs.Visits

/-!
# Assignments of a value to a name

An assignment with a name and a value directly below it is read as such, whatever the value is made
of: the search visits the assignment, the name and the value, and never goes below the value.

* `PlainAssignment`: an assignment with a name and one more node directly below it.

Results:
* `Arena.Performs.walk_run_ofTree`: where the turns of a walk lead, there the walk ends.
* `PlainAssignment.exists_performs`: the three turns of the search.
* `assignment_of_plain`: what is found.
-/

namespace Stepflow

namespace Arena

/-- Where the turns of a walk lead, there it ends. The bound on the number of visits is not
    reached. -/
theorem Performs.walk_run_ofTree {σ : Type} {t : Tree} {source : List Char} {v : Visitor σ}
    {start : Nat} {s s' : σ} {visits : List (Visit σ)}
    (h : (ofTree t source).Performs v [start] s visits [] s') :
    ((ofTree t source).walk v start).run s = ((), s') := by
  have hstart : start < (ofTree t source).size := by
    cases h with
    | turn node => exact (Array.getElem?_eq_some_iff.mp node).1
  obtain ⟨o, ho, rfl, -, hsize⟩ := exists_outline t source hstart
  obtain ⟨rfl, -⟩ := h.unique rfl (ho.performs [] s)
  have hlength : ((o.visits v s).map (·.place)).length ≤ o.places.length :=
    (o.visits_sublist s).length_le
  rw [List.length_map] at hlength
  exact h.walk_run (by omega)

theorem exists_node?_of_kind? {a : Arena} {id : Nat} {kind : Kind} (h : a.kind? id = some kind) :
    ∃ n, a.node? id = some n ∧ n.kind = kind ∧ n.nodes = a.below id := by
  obtain ⟨n, hn, rfl⟩ := Option.map_eq_some_iff.mp h
  refine ⟨n, hn, rfl, ?_⟩
  rw [below, hn]

end Arena

namespace Flow

open Arena (ofTree)

/-- At a place stands an assignment. Directly below it are two nodes, of which the first is a name
    with nothing below it. -/
structure PlainAssignment (a : Arena) (id target value : Nat) (name : String) : Prop where
  kind : ∃ operator, a.kind? id = some (.assignmentExpression operator)
  operands : a.below id = [target, value]
  name : a.kind? target = some (.identifier name)
  leaf : a.below target = []

/-- With a name found, the search does not go below the next node. It takes the node for the value,
    or gives up. -/
theorem exists_dispatch_value (kind : Kind) (value : Nat) {s : AssignmentState}
    (hs : s.turn = { count := 2, missed := false }) (id : Nat) :
    ∃ s', (assignmentVisitor.dispatch kind value).run s = (false, s') ∧
      s'.answer id = if roleOf kind = .other then (s.name, value) else ("", id) := by
  have hmissed : ∀ expected ≠ 2,
      s.turn.advance (some expected) = (false, { count := 3, missed := true }) := by
    intro expected hne
    rw [advance_of_ne (.inr (by rwa [hs])), hs]
  rw [dispatch_assignmentVisitor]
  cases roleOf kind with
  | assignment =>
    rw [hmissed 0 (by decide)]
    exact ⟨_, rfl, rfl⟩
  | name text =>
    rw [hmissed 1 (by decide)]
    exact ⟨_, rfl, rfl⟩
  | other => exact ⟨_, rfl, by simp [AssignmentState.answer, hs]⟩

namespace PlainAssignment

variable {a : Arena} {id target value : Nat} {name : String}

/-- The search visits the assignment, the name and the value, and nothing else. -/
theorem exists_performs (h : PlainAssignment a id target value name) {kind : Kind}
    (hvalue : a.kind? value = some kind) :
    ∃ visits s, a.Performs assignmentVisitor [id] { value := id } visits [] s ∧
      visits.map (·.place) = [id, target, value] ∧
      s.answer id = if roleOf kind = .other then (name, value) else ("", id) := by
  obtain ⟨operator, hkind⟩ := h.kind
  obtain ⟨n, hn, hnkind, hnodes⟩ := Arena.exists_node?_of_kind? hkind
  obtain ⟨m, hm, hmkind, hmnodes⟩ := Arena.exists_node?_of_kind? h.name
  obtain ⟨k, hk, rfl, -⟩ := Arena.exists_node?_of_kind? hvalue
  rw [h.operands] at hnodes
  rw [h.leaf] at hmnodes
  have hfirst : (assignmentVisitor.dispatch n.kind id).run { value := id } =
      (true, { turn := ⟨1, false⟩, value := id }) := by
    rw [hnkind]
    rfl
  have hsecond : (assignmentVisitor.dispatch m.kind target).run
      { turn := ⟨1, false⟩, value := id } =
      (true, { turn := ⟨2, false⟩, name := name, value := id }) := by
    rw [hmkind]
    rfl
  obtain ⟨s, hthird, hanswer⟩ := exists_dispatch_value k.kind value
    (s := { turn := ⟨2, false⟩, name := name, value := id }) rfl id
  -- the turns are put together from the last one to the first
  have hbehind := Arena.Performs.turn hk hthird (.none [] s)
  have hbelow : a.Performs assignmentVisitor [target, value] _ _ [] s :=
    .turn hm hsecond (by rw [if_pos rfl, hmnodes]; exact hbehind)
  have hall : a.Performs assignmentVisitor [id] _ _ [] s :=
    .turn hn hfirst (by rw [if_pos rfl, hnodes]; exact hbelow)
  exact ⟨_, s, hall, rfl, hanswer⟩

theorem exists_kind? {t : Tree} {source : List Char}
    (h : PlainAssignment (ofTree t source) id target value name) :
    ∃ kind, (ofTree t source).kind? value = some kind := by
  obtain ⟨operator, hkind⟩ := h.kind
  obtain ⟨n, hn, -, -⟩ := Arena.exists_node?_of_kind? hkind
  obtain ⟨o, ho, rfl, -, -⟩ := Arena.exists_outline t source (Array.getElem?_eq_some_iff.mp hn).1
  have hvalue : value ∈ o.parts.map (·.place) := by
    rw [← ho.below_eq, h.operands]
    simp
  obtain ⟨o', ho', rfl⟩ := List.mem_map.mp hvalue
  refine ⟨o'.node.kind, ?_⟩
  rw [Arena.kind?, (ho.of_mem_parts ho').node?_eq, Option.map_some]

end PlainAssignment

/-- At an assignment with a name and a value directly below it, the search visits these three nodes
    and no others, whatever lies below the value. It finds the name and the value, unless the value
    is a name or an assignment itself. Then it finds nothing. -/
theorem assignment_of_plain (t : Tree) (source : List Char) {id target value : Nat} {name : String}
    (h : PlainAssignment (ofTree t source) id target value name) :
    ∃ kind visits s, (ofTree t source).kind? value = some kind ∧
      (ofTree t source).Performs assignmentVisitor [id] { value := id } visits [] s ∧
      visits.map (·.place) = [id, target, value] ∧
      assignment (ofTree t source) id =
        match kind with
        | .identifier _ | .assignmentExpression _ => ("", id)
        | _ => (name, value) := by
  obtain ⟨kind, hkind⟩ := h.exists_kind?
  obtain ⟨visits, s, hperforms, hplaces, hanswer⟩ := h.exists_performs hkind
  refine ⟨kind, visits, s, hkind, hperforms, hplaces, ?_⟩
  have hassignment : assignment (ofTree t source) id = s.answer id := by
    rw [assignment, hperforms.walk_run_ofTree]
    rfl
  rw [hassignment, hanswer]
  cases kind <;> rfl

/-- The tree of `x = f(y = z, x)`. -/
def deepAssignment : Tree where
  kind := .assignmentExpression "="
  span := { start := 1, stop := 16 }
  fields := [(.left, .leaf (.identifier "x") { start := 1, stop := 2 }),
    (.right, .node (.other "CallExpression") { start := 5, stop := 16 }
      [(.children, .leaf (.identifier "f") { start := 5, stop := 6 }),
      (.children, .node (.assignmentExpression "=") { start := 7, stop := 12 }
        [(.left, .leaf (.identifier "y") { start := 7, stop := 8 }),
        (.right, .leaf (.identifier "z") { start := 11, stop := 12 })]),
      (.children, .leaf (.identifier "x") { start := 14, stop := 15 })])]

/-- The names and the assignment inside the value do not matter. The assignment inside it is not
    read, since a name stands on its right. -/
theorem deepAssignment_found :
    PlainAssignment (ofTree deepAssignment "x = f(y = z, x)".toList) 0 1 2 "x" ∧
      assignment (ofTree deepAssignment "x = f(y = z, x)".toList) 0 = ("x", 2) ∧
      PlainAssignment (ofTree deepAssignment "x = f(y = z, x)".toList) 4 5 6 "y" ∧
      assignment (ofTree deepAssignment "x = f(y = z, x)".toList) 4 = ("", 4) := by
  have houter : PlainAssignment (ofTree deepAssignment "x = f(y = z, x)".toList) 0 1 2 "x" :=
    ⟨⟨"=", by cbv⟩, by cbv, by cbv, by cbv⟩
  have hinner : PlainAssignment (ofTree deepAssignment "x = f(y = z, x)".toList) 4 5 6 "y" :=
    ⟨⟨"=", by cbv⟩, by cbv, by cbv, by cbv⟩
  have hcall : (ofTree deepAssignment "x = f(y = z, x)".toList).kind? 2 =
      some (.other "CallExpression") := by cbv
  have hname : (ofTree deepAssignment "x = f(y = z, x)".toList).kind? 6 =
      some (.identifier "z") := by cbv
  obtain ⟨kind, -, -, hkind, -, -, hfound⟩ := assignment_of_plain _ _ houter
  obtain ⟨kind', -, -, hkind', -, -, hfound'⟩ := assignment_of_plain _ _ hinner
  obtain rfl := Option.some.inj (hcall.symm.trans hkind)
  obtain rfl := Option.some.inj (hname.symm.trans hkind')
  exact ⟨houter, hfound, hinner, hfound'⟩

end Flow

end Stepflow
