import Mathlib
import Stepflow.Flow.OfArena
import Stepflow.Proofs.Assignment
import Stepflow.Proofs.Nesting

/-!
# What a chart depends on

A chart is made of what lies at and below its place, and of the parts of the source that the nodes
there cover. Two arenas that agree in these give the same chart.

* `Arena.Shares`: two arenas have an outline in common, and the same text for its nodes.

Results:
* `Outline.walk_congr`: visitors that do the same at the places of an outline do the same on a walk.
* `Flow.value_walk`: the value of an assignment lies at or below the place of the search.
* `Flow.step_shared`, `Flow.sequence?_shared`, `Flow.declared?_shared`: steps, sequences and
  variables are the same.
* `Flow.chart?_shared`: charts are the same.
-/

namespace Stepflow

/-! ## Walks -/

namespace Outline

variable {σ : Type} {v v' : Visitor σ}

mutual

/-- Visitors that do the same at every place of an outline do the same on a walk. -/
theorem walk_congr : ∀ o : Outline,
    (∀ kind, ∀ id ∈ o.places, v.dispatch kind id = v'.dispatch kind id) → o.walk v = o.walk v'
  | ⟨id, n, parts⟩, h => by
    rw [places] at h
    rw [walk, walk, h n.kind id List.mem_cons_self,
      walkAll_congr parts fun kind k hk => h kind k (List.mem_cons_of_mem _ hk)]

theorem walkAll_congr : ∀ os : List Outline,
    (∀ kind, ∀ id ∈ placesAll os, v.dispatch kind id = v'.dispatch kind id) →
      walkAll v os = walkAll v' os
  | [], _ => by rw [walkAll, walkAll]
  | o :: os, h => by
    rw [placesAll] at h
    rw [walkAll, walkAll, walk_congr o fun kind k hk => h kind k (List.mem_append_left _ hk),
      walkAll_congr os fun kind k hk => h kind k (List.mem_append_right _ hk)]

end

end Outline

/-! ## Arenas with a common outline -/

namespace Arena

/-- An outline of an arena is one of every arena that has the same nodes at its places. -/
theorem Outlines.of_node?_eq {a a' : Arena} {o : Outline} (h : a.Outlines o)
    (hnode : ∀ k ∈ o.places, a'.node? k = a.node? k) : a'.Outlines o := by
  induction h with
  | @intro id n parts hid hnodes _ ih =>
    refine .intro ?_ hnodes fun o ho => ih o ho fun k hk => ?_
    · rw [hnode id (Outline.place_mem_places _), hid]
    · exact hnode k (Outline.mem_places.mpr (.inr ⟨o, ho, hk⟩))

/-- Two arenas have an outline in common, and its nodes cover the same parts of both texts. -/
structure Shares (a a' : Arena) (text text' : List Char) (o : Outline) : Prop where
  left : a.Outlines o
  right : a'.Outlines o
  size_left : o.places.length ≤ a.size
  size_right : o.places.length ≤ a'.size
  fields : ∀ k ∈ o.places, ∀ n, a.node? k = some n → n.fields.map (·.2) = n.nodes
  slice : ∀ k ∈ o.places, ∀ l ∈ o.places, ∀ m n, a.node? k = some m → a.node? l = some n →
    Text.slice? text' m.span.start n.span.stop = Text.slice? text m.span.start n.span.stop

namespace Shares

variable {a a' : Arena} {text text' : List Char} {o : Outline} {k c : Nat} {n : Node} {f : Field}

/-- What lies at and below a place of a common outline is common as well. -/
theorem exists_part (h : Shares a a' text text' o) (hk : k ∈ o.places) :
    ∃ o' : Outline, o'.place = k ∧ Shares a a' text text' o' := by
  obtain ⟨o', hplace, hrun, hall⟩ := h.left.exists_part hk
  have hlen := hrun.sublist.length_le
  refine ⟨o', hplace, hall a h.left, hall a' h.right, Nat.le_trans hlen h.size_left,
    Nat.le_trans hlen h.size_right, ?_, ?_⟩
  · intro l hl
    exact h.fields l (hrun.subset hl)
  · intro l hl l' hl'
    exact h.slice l (hrun.subset hl) l' (hrun.subset hl')

theorem node?_eq (h : Shares a a' text text' o) (hk : k ∈ o.places) : a'.node? k = a.node? k := by
  obtain ⟨o', rfl, h'⟩ := h.exists_part hk
  rw [h'.left.node?_eq, h'.right.node?_eq]

theorem kind?_eq (h : Shares a a' text text' o) (hk : k ∈ o.places) : a'.kind? k = a.kind? k := by
  rw [kind?, kind?, h.node?_eq hk]

theorem below_eq (h : Shares a a' text text' o) (hk : k ∈ o.places) : a'.below k = a.below k := by
  rw [below, below, h.node?_eq hk]

theorem mem_of_mem_below (h : Shares a a' text text' o) (hk : k ∈ o.places) (hc : c ∈ a.below k) :
    c ∈ o.places := by
  rw [h.left.mem_places_iff] at hk ⊢
  exact hk.tail hc

theorem mem_of_mem_allIn (h : Shares a a' text text' o) (hk : k ∈ o.places)
    (hn : a.node? k = some n) (hc : c ∈ n.allIn f) : c ∈ o.places := by
  refine h.mem_of_mem_below hk ?_
  obtain ⟨e, he, rfl⟩ := List.mem_map.mp hc
  rw [below, hn]
  dsimp only
  rw [← h.fields k hk n hn]
  exact List.mem_map_of_mem (List.mem_filter.mp he).1

theorem mem_of_firstIn? (h : Shares a a' text text' o) (hk : k ∈ o.places)
    (hn : a.node? k = some n) (hc : n.firstIn? f = some c) : c ∈ o.places :=
  h.mem_of_mem_allIn hk hn (List.mem_of_head? hc)

theorem text_eq (h : Shares a a' text text' o) (hk : k ∈ o.places) :
    a'.text text' k = a.text text k := by
  rw [Arena.text, Arena.text, h.node?_eq hk]
  cases hn : a.node? k with
  | none => rfl
  | some n =>
    dsimp only
    rw [Text.slice, Text.slice, h.slice k hk k hk n n hn hn]

theorem walk_eq {σ : Type} (h : Shares a a' text text' o) (v : Visitor σ) (s : σ) :
    ((a'.walk v o.place).run s).2 = ((a.walk v o.place).run s).2 := by
  rw [walk_eq_outline_walk h.left h.size_left, walk_eq_outline_walk h.right h.size_right]

end Shares

end Arena

namespace Flow

open Arena (Shares)
open Outline (walkAll placesAll)

/-! ## Statements -/

theorem value_dispatch (kind : Kind) (id : Nat) (s : AssignmentState) :
    ((assignmentVisitor.dispatch kind id).run s).2.value = s.value ∨
      ((assignmentVisitor.dispatch kind id).run s).2.value = id := by
  rw [dispatch_assignmentVisitor]
  cases roleOf kind <;> simp

mutual

/-- The search for an assignment takes its value from the places that it visits. -/
theorem value_walk : ∀ (o : Outline) (s : AssignmentState),
    ((o.walk assignmentVisitor).run s).2.value ∈ s.value :: o.places
  | ⟨id, n, parts⟩, s => by
    have hvisit := value_dispatch n.kind id s
    rw [Outline.walk_run, Outline.places]
    dsimp only
    rcases hrun : (assignmentVisitor.dispatch n.kind id).run s with ⟨_ | _, s'⟩
    · rw [hrun] at hvisit
      grind
    · have hparts := value_walkAll parts s'
      rw [hrun] at hvisit
      grind

theorem value_walkAll : ∀ (os : List Outline) (s : AssignmentState),
    ((walkAll assignmentVisitor os).run s).2.value ∈ s.value :: placesAll os
  | [], s => by rw [Outline.walkAll_nil]; exact List.mem_cons_self
  | o :: os, s => by
    have ho := value_walk o s
    have hos := value_walkAll os ((o.walk assignmentVisitor).run s).2
    rw [Outline.walkAll_cons, placesAll]
    grind

end

section Shared

variable {a a' : Arena} {text text' : List Char} {o : Outline} {k : Nat} {n : Node}

theorem assignment_mem (h : a.Outlines o) (hsize : o.places.length ≤ a.size) :
    (assignment a o.place).2 ∈ o.places := by
  have hvalue := value_walk o { value := o.place }
  rw [← Arena.walk_eq_outline_walk h hsize] at hvalue
  rw [assignment]
  split
  · exact o.place_mem_places
  · rcases List.mem_cons.mp hvalue with heq | hmem
    · exact heq ▸ o.place_mem_places
    · exact hmem

theorem decision?_shared (h : Shares a a' text text' o) :
    decision? a' o.place = decision? a o.place := by
  rw [decision?, decision?, h.walk_eq]

theorem assignment_shared (h : Shares a a' text text' o) :
    assignment a' o.place = assignment a o.place := by
  rw [assignment, assignment, h.walk_eq]

theorem codeStep_shared (h : Shares a a' text text' o) (n : Node) :
    codeStep a' text' n o.place = codeStep a text n o.place := by
  rw [codeStep, codeStep, assignment_shared h]
  dsimp only
  rw [h.text_eq (assignment_mem h.left h.size_left)]

/-- The expression that stands for a statement is the statement itself or lies directly below. -/
theorem subject_mem (h : Shares a a' text text' o) (hk : k ∈ o.places) (hn : a.node? k = some n) :
    subject n k ∈ o.places := by
  rw [subject]
  split
  · next first rest _ hnodes =>
    refine h.mem_of_mem_below hk ?_
    rw [Arena.below, hn]
    dsimp only
    rw [hnodes]
    exact List.mem_cons_self
  · exact hk

theorem step_shared (h : Shares a a' text text' o) (hk : k ∈ o.places) (hn : a.node? k = some n) :
    step a' text' n k = step a text n k := by
  obtain ⟨o', hplace, h'⟩ := h.exists_part (subject_mem h hk hn)
  rw [step, step, ← hplace, decision?_shared h', codeStep_shared h']

theorem steps_shared (h : Shares a a' text text' o) {ids : List Nat}
    (hids : ∀ k ∈ ids, k ∈ o.places) : steps a' text' ids = steps a text ids := by
  induction ids with
  | nil => rfl
  | cons k ids ih =>
    have hk := hids k List.mem_cons_self
    have ih := ih fun l hl => hids l (List.mem_cons_of_mem _ hl)
    rw [steps, steps, h.node?_eq hk]
    cases hn : a.node? k with
    | none => exact ih
    | some n =>
      dsimp only
      rw [ih, step_shared h hk hn]

/-! ## Sequences and variables -/

theorem caseId?_shared (h : Shares a a' text text' o) (hk : k ∈ o.places)
    (hn : a.node? k = some n) : caseId? a' n = caseId? a n := by
  rw [caseId?, caseId?]
  cases htest : n.firstIn? .test with
  | none => rfl
  | some test =>
    dsimp only [Option.bind_eq_bind, Option.bind_some]
    rw [h.kind?_eq (h.mem_of_firstIn? hk hn htest)]

theorem sequence?_shared (h : Shares a a' text text' o) (hk : k ∈ o.places)
    (hn : a.node? k = some n) : sequence? a' text' n = sequence? a text n := by
  rw [sequence?, sequence?, caseId?_shared h hk hn,
    steps_shared h fun c hc => h.mem_of_mem_allIn hk hn hc]

theorem typeText?_shared (h : Shares a a' text text' o) (hk : k ∈ o.places) :
    typeText? a' text' k = typeText? a text k := by
  rw [typeText?, typeText?, h.below_eq hk]
  cases hfirst : (a.below k).head? with
  | none => rfl
  | some first =>
    cases hlast : (a.below k).getLast? with
    | none =>
      rw [List.getLast?_eq_none_iff] at hlast
      rw [hlast] at hfirst
      cases hfirst
    | some last =>
      have hfirst := h.mem_of_mem_below hk (List.mem_of_head? hfirst)
      have hlast := h.mem_of_mem_below hk (List.mem_of_getLast? hlast)
      dsimp only [Option.bind_eq_bind, Option.bind_some]
      rw [h.node?_eq hfirst, h.node?_eq hlast]
      cases hm : a.node? first with
      | none => rfl
      | some m =>
        cases hl : a.node? last with
        | none => rfl
        | some l =>
          dsimp only [Option.bind_some]
          rw [h.slice first hfirst last hlast m l hm hl]

theorem declared?_shared (h : Shares a a' text text' o) (hk : k ∈ o.places)
    (hn : a.node? k = some n) : declared? a' text' n = declared? a text n := by
  have hinit : (n.firstIn? .init).bind a'.kind? = (n.firstIn? .init).bind a.kind? := by
    cases hi : n.firstIn? .init with
    | none => rfl
    | some init => exact h.kind?_eq (h.mem_of_firstIn? hk hn hi)
  rw [declared?, declared?, hinit]
  cases hid : n.firstIn? .id with
  | none => rfl
  | some id =>
    have hid := h.mem_of_firstIn? hk hn hid
    dsimp only [Option.bind_eq_bind, Option.bind_some]
    rw [h.node?_eq hid]
    cases hb : a.node? id with
    | none => rfl
    | some binding =>
      have htype : (binding.firstIn? .typeAscription).bind (typeText? a' text') =
          (binding.firstIn? .typeAscription).bind (typeText? a text) := by
        cases ht : binding.firstIn? .typeAscription with
        | none => rfl
        | some type => exact typeText?_shared h (h.mem_of_firstIn? hid hb ht)
      dsimp only [Option.bind_some]
      rw [htype]

/-! ## Charts -/

/-- A visit adds the sequence of a case or the variable of a declarator, and stops there. -/
theorem dispatch_contentVisitor (a : Arena) (text : List Char) (kind : Kind) (id : Nat)
    (c : Content) :
    ((contentVisitor a text).dispatch kind id).run c =
      match kind with
      | .switchCase =>
        (false, { c with body := ((a.node? id).bind (sequence? a text)).toList ++ c.body })
      | .variableDeclarator =>
        (false, { c with vars := ((a.node? id).bind (declared? a text)).toList ++ c.vars })
      | _ => (true, c) := by
  cases kind
  case switchCase =>
    simp only [Visitor.dispatch, Visitor.handler, contentVisitor]
    cases (a.node? id).bind (sequence? a text) <;> rfl
  case variableDeclarator =>
    simp only [Visitor.dispatch, Visitor.handler, contentVisitor]
    cases (a.node? id).bind (declared? a text) <;> rfl
  all_goals rfl

theorem contentVisitor_shared (h : Shares a a' text text' o) (kind : Kind) (hk : k ∈ o.places) :
    (contentVisitor a' text').dispatch kind k = (contentVisitor a text).dispatch kind k := by
  have hsequence : (a'.node? k).bind (sequence? a' text') =
      (a.node? k).bind (sequence? a text) := by
    rw [h.node?_eq hk]
    cases hn : a.node? k with
    | none => rfl
    | some n => exact sequence?_shared h hk hn
  have hdeclared : (a'.node? k).bind (declared? a' text') =
      (a.node? k).bind (declared? a text) := by
    rw [h.node?_eq hk]
    cases hn : a.node? k with
    | none => rfl
    | some n => exact declared?_shared h hk hn
  refine StateT.ext fun c => ?_
  rw [dispatch_contentVisitor, dispatch_contentVisitor, hsequence, hdeclared]

/-- Arenas that have the outline of a place in common, and texts that agree in what its nodes cover,
    give the same chart there. -/
theorem chart?_shared (h : Shares a a' text text' o) :
    chart? a' text' o.place = chart? a text o.place := by
  have hwalk : ((a'.walk (contentVisitor a' text') o.place).run {}).2 =
      ((a.walk (contentVisitor a text) o.place).run {}).2 := by
    rw [Arena.walk_eq_outline_walk h.left h.size_left,
      Arena.walk_eq_outline_walk h.right h.size_right,
      o.walk_congr fun kind _ hk => contentVisitor_shared h kind hk]
  rw [chart?, chart?, h.node?_eq o.place_mem_places, h.text_eq o.place_mem_places, hwalk]

end Shared

end Flow

end Stepflow
