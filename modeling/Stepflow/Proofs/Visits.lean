import Stepflow.Proofs.Nesting

/-!
# The visits of a walk

A walk keeps the places that wait and takes the first one in each turn. The recursion over an
outline has no such list. Both make the same visits, in the same order and with the same states of
the visitor, whatever the visitor answers.

* `Visit`: a place, the states of the visitor before and behind it, and whether to go down.
* `Visitor.Answers`: the answer of a visitor, by who gives it.
* `Arena.Performs`: what the walk over waiting places does, turn by turn and without a bound on the
  number of turns.
* `Outline.visits`: the visits of the recursion.

Results:
* `Visitor.dispatch_run_iff`: a visit gives the answer of the visitor.
* `Arena.Performs.walkFrom_run`: a bound that the turns do not exceed changes nothing.
* `Arena.Outlines.performs`: at an outline the walk makes the visits of the recursion.
* `Outline.visits_sublist`: the visits follow the order of the outline.
* `Arena.Outlines.down_above`, `Arena.Outlines.mem_visits_of_down`: a place is visited if and only
  if the visitor goes down at every place above it.
* `Arena.walk_visits`: all of this for every place in the arena of a tree.
-/

namespace Stepflow

/-- One visit of a walk: where it is, the states of the visitor before and behind it, and whether
    the walk goes down. -/
structure Visit (σ : Type) where
  place : Nat
  before : σ
  down : Bool
  after : σ

variable {σ : Type}

/-! ## Answers -/

namespace Visitor

/-- The answer at a node: that of the handler for its kind, or else that of the fallback, in the
    state that the handler leaves, or else to go down. -/
inductive Answers (v : Visitor σ) (kind : Kind) (id : Nat) : σ → Bool → σ → Prop
  | handler {s s' : σ} {down : Bool} (answer : (v.handler kind id).run s = (some down, s')) :
      Answers v kind id s down s'
  | fallback {s s' s'' : σ} {down : Bool} (passed : (v.handler kind id).run s = (none, s'))
      (answer : (v.fallback id).run s' = (some down, s'')) : Answers v kind id s down s''
  | unhandled {s s' s'' : σ} (passed : (v.handler kind id).run s = (none, s'))
      (passed' : (v.fallback id).run s' = (none, s'')) : Answers v kind id s true s''

variable {v : Visitor σ} {kind : Kind} {id : Nat} {s s' : σ} {down : Bool}

theorem Answers.dispatch_run (h : v.Answers kind id s down s') :
    (v.dispatch kind id).run s = (down, s') := by
  rw [dispatch, StateT.run_bind]
  cases h with
  | handler answer =>
    rw [answer]
    rfl
  | fallback passed answer =>
    rw [passed]
    change ((v.fallback id >>= _).run _ : Id _) = _
    rw [StateT.run_bind, answer]
    rfl
  | unhandled passed passed' =>
    rw [passed]
    change ((v.fallback id >>= _).run _ : Id _) = _
    rw [StateT.run_bind, passed']
    rfl

theorem exists_answers (v : Visitor σ) (kind : Kind) (id : Nat) (s : σ) :
    ∃ down s', v.Answers kind id s down s' := by
  obtain ⟨answer, s', h⟩ : ∃ answer s', (v.handler kind id).run s = (answer, s') := ⟨_, _, rfl⟩
  cases answer with
  | some down => exact ⟨down, s', .handler h⟩
  | none =>
    obtain ⟨answer, s'', h'⟩ : ∃ answer s'', (v.fallback id).run s' = (answer, s'') := ⟨_, _, rfl⟩
    cases answer with
    | some down => exact ⟨down, s'', .fallback h h'⟩
    | none => exact ⟨true, s'', .unhandled h h'⟩

/-- A visit gives the answer of the visitor. -/
theorem dispatch_run_iff :
    (v.dispatch kind id).run s = (down, s') ↔ v.Answers kind id s down s' := by
  refine ⟨fun h => ?_, Answers.dispatch_run⟩
  obtain ⟨down', s'', hanswers⟩ := exists_answers v kind id s
  obtain ⟨rfl, rfl⟩ := Prod.mk.inj (hanswers.dispatch_run.symm.trans h)
  exact hanswers

end Visitor

/-! ## Turns -/

/-- With some places waiting, the walk makes visits until other places wait. In each turn the first
    place that waits is visited, and if the visitor goes down, the places below come to the front.
    The walk is over when nothing waits. -/
inductive Arena.Performs (a : Arena) (v : Visitor σ) :
    List Nat → σ → List (Visit σ) → List Nat → σ → Prop
  | none (waiting : List Nat) (s : σ) : a.Performs v waiting s [] waiting s
  | turn {id : Nat} {n : Node} {waiting waiting' : List Nat} {s s' s'' : σ} {down : Bool}
      {visits : List (Visit σ)} (node : a.node? id = some n)
      (dispatch : (v.dispatch n.kind id).run s = (down, s'))
      (next : a.Performs v (if down then n.nodes ++ waiting else waiting) s' visits waiting' s'') :
      a.Performs v (id :: waiting) s
        ({ place := id, before := s, down := down, after := s' } :: visits) waiting' s''

namespace Arena.Performs

variable {a : Arena} {v : Visitor σ} {waiting waiting' waiting'' : List Nat} {s s' s'' : σ}
  {visits visits' : List (Visit σ)}

theorem append (h : a.Performs v waiting s visits waiting' s')
    (h' : a.Performs v waiting' s' visits' waiting'' s'') :
    a.Performs v waiting s (visits ++ visits') waiting'' s'' := by
  induction h with
  | none => exact h'
  | turn node dispatch _ ih => exact .turn node dispatch (ih h')

/-- There is only one way to the end of a walk. -/
theorem unique (h : a.Performs v waiting s visits waiting' s') (hend : waiting' = [])
    (h' : a.Performs v waiting s visits' [] s'') : visits = visits' ∧ s' = s'' := by
  induction h generalizing visits' with
  | none =>
    subst hend
    cases h'
    exact ⟨rfl, rfl⟩
  | turn node dispatch _ ih =>
    cases h' with
    | turn node' dispatch' next =>
      obtain rfl := Option.some.inj (node.symm.trans node')
      obtain ⟨rfl, rfl⟩ := Prod.mk.inj (dispatch.symm.trans dispatch')
      obtain ⟨rfl, rfl⟩ := ih hend next
      exact ⟨rfl, rfl⟩

/-- Each visit is made at a node, with the answer of the visitor. -/
theorem answers (h : a.Performs v waiting s visits waiting' s') :
    ∀ w ∈ visits, ∃ n, a.node? w.place = some n ∧
      v.Answers n.kind w.place w.before w.down w.after := by
  induction h with
  | none => exact fun w hw => absurd hw List.not_mem_nil
  | turn node dispatch _ ih =>
    exact List.forall_mem_cons.mpr ⟨⟨_, node, Visitor.dispatch_run_iff.mp dispatch⟩, ih⟩

/-- A bound that the turns do not exceed changes nothing. -/
theorem walkFrom_run (h : a.Performs v waiting s visits waiting' s') (bound : Nat) :
    (a.walkFrom v (visits.length + bound) waiting).run s =
      (a.walkFrom v bound waiting').run s' := by
  induction h with
  | none => rw [List.length_nil, Nat.zero_add]
  | @turn id n _ _ _ _ _ down _ node dispatch _ ih =>
    rw [List.length_cons, Nat.add_right_comm, walkFrom, node]
    dsimp only
    rw [StateT.run_bind, dispatch]
    cases down <;> exact ih

/-- A walk that comes to its end within the bound gives the state at its end. -/
theorem walk_run {start : Nat} (h : a.Performs v [start] s visits [] s')
    (hsize : visits.length ≤ a.size) : (a.walk v start).run s = ((), s') := by
  obtain ⟨bound, hbound⟩ := Nat.exists_eq_add_of_le hsize
  rw [walk, hbound, h.walkFrom_run bound, walkFrom_nil]

end Arena.Performs

/-! ## The recursion -/

namespace Outline

variable (v : Visitor σ)

mutual

/-- The visits of the recursion over an outline: the node, and what lies below it if the visitor
    goes down. -/
def visits : Outline → σ → List (Visit σ)
  | ⟨id, n, parts⟩, s =>
    let visited := (v.dispatch n.kind id).run s
    { place := id, before := s, down := visited.1, after := visited.2 } ::
      if visited.1 then visitsAll parts visited.2 else []

/-- The visits of the recursion over outlines that follow each other. -/
def visitsAll : List Outline → σ → List (Visit σ)
  | [], _ => []
  | o :: os, s => visits o s ++ visitsAll os ((o.walk v).run s).2

end

variable {v}

mutual

/-- The visits follow the order of the outline. -/
theorem visits_sublist : ∀ (o : Outline) (s : σ), ((o.visits v s).map (·.place)).Sublist o.places
  | ⟨id, n, parts⟩, s => by
    rw [visits, places, List.map_cons]
    refine List.Sublist.cons_cons id ?_
    split
    · exact visitsAll_sublist parts _
    · exact List.nil_sublist _

theorem visitsAll_sublist : ∀ (os : List Outline) (s : σ),
    ((visitsAll v os s).map (·.place)).Sublist (placesAll os)
  | [], _ => List.nil_sublist _
  | o :: os, s => by
    rw [visitsAll, placesAll, List.map_append]
    exact (visits_sublist o s).append (visitsAll_sublist os _)

end

theorem place_mem_of_mem_visits {o : Outline} {s : σ} {w : Visit σ} (h : w ∈ o.visits v s) :
    w.place ∈ o.places :=
  (visits_sublist o s).subset (List.mem_map_of_mem h)

theorem place_mem_of_mem_visitsAll {os : List Outline} {s : σ} {w : Visit σ}
    (h : w ∈ visitsAll v os s) : w.place ∈ placesAll os :=
  (visitsAll_sublist os s).subset (List.mem_map_of_mem h)

theorem mem_placesAll {os : List Outline} {o : Outline} {k : Nat} (ho : o ∈ os)
    (hk : k ∈ o.places) : k ∈ placesAll os := by
  rw [placesAll_eq]
  exact List.mem_flatMap.mpr ⟨o, ho, hk⟩

theorem nodup_of_mem {os : List Outline} (h : (placesAll os).Nodup) {o : Outline} (ho : o ∈ os) :
    o.places.Nodup := by
  rw [placesAll_eq, List.nodup_flatMap] at h
  exact h.1 o ho

/-- The visits of one of the outlines are those of all of them that fall into it. -/
theorem exists_visits_of_mem {os : List Outline} {o : Outline} (ho : o ∈ os)
    (hnodup : (placesAll os).Nodup) (s : σ) :
    ∃ s', ∀ w, w ∈ o.visits v s' ↔ w ∈ visitsAll v os s ∧ w.place ∈ o.places := by
  induction os generalizing s with
  | nil => cases ho
  | cons first os ih =>
    rw [placesAll, List.nodup_append] at hnodup
    obtain ⟨-, hrest, hapart⟩ := hnodup
    rcases List.mem_cons.mp ho with rfl | ho
    · refine ⟨s, fun w => ?_⟩
      rw [visitsAll, List.mem_append]
      constructor
      · intro hw
        exact ⟨.inl hw, place_mem_of_mem_visits hw⟩
      · rintro ⟨hw | hw, hplace⟩
        · exact hw
        · exact absurd rfl (hapart _ hplace _ (place_mem_of_mem_visitsAll hw))
    · obtain ⟨s', hs'⟩ := ih ho hrest ((first.walk v).run s).2
      refine ⟨s', fun w => ?_⟩
      rw [hs', visitsAll, List.mem_append]
      constructor
      · rintro ⟨hw, hplace⟩
        exact ⟨.inr hw, hplace⟩
      · rintro ⟨hw | hw, hplace⟩
        · exact absurd rfl (hapart _ (place_mem_of_mem_visits hw) _ (mem_placesAll ho hplace))
        · exact ⟨hw, hplace⟩

end Outline

namespace Arena

open Outline

variable {a : Arena} {v : Visitor σ}

theorem performs_visitsAll {os : List Outline} (waiting : List Nat)
    (h : ∀ o ∈ os, ∀ (waiting : List Nat) (s : σ),
      a.Performs v (o.place :: waiting) s (o.visits v s) waiting ((o.walk v).run s).2) (s : σ) :
    a.Performs v (os.map (·.place) ++ waiting) s (visitsAll v os s) waiting
      ((walkAll v os).run s).2 := by
  induction os generalizing s with
  | nil =>
    rw [walkAll_nil, visitsAll]
    exact .none waiting s
  | cons o os ih =>
    rw [walkAll_cons, visitsAll]
    exact (h o List.mem_cons_self _ s).append
      (ih (fun o ho => h o (List.mem_cons_of_mem _ ho)) ((o.walk v).run s).2)

/-- At an outline the walk makes the visits of the recursion, and then turns to what waits. -/
theorem Outlines.performs {o : Outline} (h : a.Outlines o) (waiting : List Nat) (s : σ) :
    a.Performs v (o.place :: waiting) s (o.visits v s) waiting ((o.walk v).run s).2 := by
  induction h generalizing waiting s with
  | @intro id n parts hnode hnodes _ ih =>
    rw [visits, Outline.walk_run]
    dsimp only
    rcases hrun : (v.dispatch n.kind id).run s with ⟨_ | _, s'⟩
    · exact .turn hnode hrun (.none waiting s')
    · refine .turn hnode hrun ?_
      rw [if_pos rfl, hnodes]
      exact performs_visitsAll waiting ih s'

theorem Outlines.mem_places_of_above {o : Outline} (h : a.Outlines o) {j k : Nat}
    (hj : j ∈ o.places) (hjk : a.Above j k) : k ∈ o.places := by
  rw [h.mem_places_iff] at hj ⊢
  exact hj.trans hjk

/-- The visitor goes down at every place above one that is visited. -/
theorem Outlines.down_above {o : Outline} (h : a.Outlines o) (hnodup : o.places.Nodup) (s : σ) :
    ∀ w ∈ o.visits v s, ∀ j ∈ o.places, a.Above j w.place → j ≠ w.place →
      ∃ w' ∈ o.visits v s, w'.place = j ∧ w'.down = true := by
  induction h generalizing s with
  | @intro id n parts hnode hnodes hall ih =>
    rw [places, List.nodup_cons] at hnodup
    obtain ⟨hid, hparts⟩ := hnodup
    rw [visits]
    rcases (v.dispatch n.kind id).run s with ⟨down, s'⟩
    intro w hw j hj habove hne
    rcases List.mem_cons.mp hw with rfl | hw
    · -- nothing below the node is above it
      rcases mem_places.mp hj with rfl | ⟨o, ho, hj⟩
      · exact absurd rfl hne
      · exact absurd (mem_placesAll ho ((hall o ho).mem_places_of_above hj habove)) hid
    · cases down with
      | false => cases hw
      | true =>
        rcases mem_places.mp hj with rfl | ⟨o, ho, hj⟩
        · exact ⟨_, List.mem_cons_self, rfl, rfl⟩
        · -- the place lies in the part that holds `j`
          have hplace := (hall o ho).mem_places_of_above hj habove
          obtain ⟨s'', hvisits⟩ := exists_visits_of_mem (v := v) ho hparts s'
          obtain ⟨w', hw', hdown⟩ := ih o ho (nodup_of_mem hparts ho) s'' w
            ((hvisits w).mpr ⟨hw, hplace⟩) j hj habove hne
          exact ⟨w', List.mem_cons_of_mem _ ((hvisits w').mp hw').1, hdown⟩

/-- A place is visited if the visitor goes down at every place above it. -/
theorem Outlines.mem_visits_of_down {o : Outline} (h : a.Outlines o) (hnodup : o.places.Nodup)
    (s : σ) {k : Nat} (hk : k ∈ o.places) :
    (∀ j ∈ o.places, a.Above j k → j ≠ k → ∃ w ∈ o.visits v s, w.place = j ∧ w.down = true) →
      k ∈ (o.visits v s).map (·.place) := by
  induction h generalizing s with
  | @intro id n parts hnode hnodes hall ih =>
    have habove := (Outlines.intro hnode hnodes hall).above hk
    rw [places, List.nodup_cons] at hnodup
    obtain ⟨hid, hparts⟩ := hnodup
    rw [visits]
    rcases (v.dispatch n.kind id).run s with ⟨down, s'⟩
    intro hdown
    rcases mem_places.mp hk with rfl | ⟨o, ho, hk⟩
    · exact List.mem_cons_self
    · have hne : id ≠ k := by
        rintro rfl
        exact hid (mem_placesAll ho hk)
      -- the node itself is above the place, so the walk went down there
      obtain rfl : down = true := by
        obtain ⟨w, hw, -, hw'⟩ := hdown id (place_mem_places _) habove hne
        cases down with
        | false => rwa [List.mem_singleton.mp hw] at hw'
        | true => rfl
      obtain ⟨s'', hvisits⟩ := exists_visits_of_mem (v := v) ho hparts s'
      have hvisited : k ∈ (o.visits v s'').map (·.place) := by
        refine ih o ho (nodup_of_mem hparts ho) s'' hk fun j hj hjk hne' => ?_
        obtain ⟨w, hw, rfl, hw'⟩ := hdown j (mem_places.mpr (.inr ⟨o, ho, hj⟩)) hjk hne'
        rcases List.mem_cons.mp hw with rfl | hw
        · exact absurd (mem_placesAll ho hj) hid
        · exact ⟨w, (hvisits w).mpr ⟨hw, hj⟩, rfl, hw'⟩
      obtain ⟨w, hw, rfl⟩ := List.mem_map.mp hvisited
      exact List.mem_cons_of_mem _ (List.mem_map_of_mem ((hvisits w).mp hw).1)

/-- A place is visited if and only if it lies in the outline and the visitor goes down at every
    place above it. -/
theorem Outlines.mem_visits_iff {o : Outline} (h : a.Outlines o) (hnodup : o.places.Nodup) (s : σ)
    (k : Nat) :
    k ∈ (o.visits v s).map (·.place) ↔
      k ∈ o.places ∧ ∀ j ∈ o.places, a.Above j k → j ≠ k →
        ∃ w ∈ o.visits v s, w.place = j ∧ w.down = true := by
  constructor
  · intro hk
    obtain ⟨w, hw, rfl⟩ := List.mem_map.mp hk
    exact ⟨place_mem_of_mem_visits hw, h.down_above hnodup s w hw⟩
  · rintro ⟨hk, hdown⟩
    exact h.mem_visits_of_down hnodup s hk hdown

/-- From every place of the arena of a tree, and for every visitor, the walk over waiting places
    comes to an end, with no more visits than there are nodes. It makes the visits of the recursion
    over what lies below the place and no others, in their order and with the same states of the
    visitor. At each place the handler for the kind of the node answers, or else the fallback, or
    else the walk goes down. No place is visited twice, and a place is visited if and only if it
    lies at or below the start and the visitor goes down at all places above it, up to the start. -/
theorem walk_visits (t : Tree) (source : List Char) (start : Fin (ofTree t source).size)
    (v : Visitor σ) (s : σ) :
    ∃ o : Outline, (ofTree t source).Outlines o ∧ o.place = start ∧
      (∀ visits s', (ofTree t source).Performs v [start] s visits [] s' ↔
        visits = o.visits v s ∧ (o.walk v).run s = ((), s')) ∧
      (∀ w ∈ o.visits v s, ∃ n, (ofTree t source).node? w.place = some n ∧
        v.Answers n.kind w.place w.before w.down w.after) ∧
      (o.visits v s).length ≤ (ofTree t source).size ∧
      ((ofTree t source).walk v start).run s = (o.walk v).run s ∧
      ((o.visits v s).map (·.place)).Nodup ∧
      ∀ k, k ∈ (o.visits v s).map (·.place) ↔
        (ofTree t source).Above start k ∧
        ∀ j, (ofTree t source).Above start j → (ofTree t source).Above j k → j ≠ k →
          ∃ w ∈ o.visits v s, w.place = j ∧ w.down = true := by
  obtain ⟨o, ho, hplace, hnodup, hsize⟩ := exists_outline t source start.isLt
  have hperforms := ho.performs (v := v) [] s
  rw [hplace] at hperforms
  have hsublist := o.visits_sublist (v := v) s
  have hlength : (o.visits v s).length ≤ (ofTree t source).size := by
    have := hsublist.length_le
    rw [List.length_map] at this
    omega
  refine ⟨o, ho, hplace, fun visits s' => ⟨fun h => ?_, ?_⟩, hperforms.answers, hlength,
    hperforms.walk_run hlength, hnodup.sublist hsublist, fun k => ?_⟩
  · obtain ⟨rfl, rfl⟩ := h.unique rfl hperforms
    exact ⟨rfl, rfl⟩
  · rintro ⟨rfl, hrun⟩
    rwa [hrun] at hperforms
  · rw [ho.mem_visits_iff hnodup]
    simp only [ho.mem_places_iff, hplace]

end Arena

end Stepflow
