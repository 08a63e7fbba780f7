import Mathlib
import Stepflow.Flow.Statement
import Stepflow.Proofs.Outline

/-!
# What the search for an assignment finds

The search visits the nodes directly below an assignment, and those directly below an identifier.
It gives up at a second identifier and at an assignment among them. If it does not give up, it takes
the name of the one identifier, wherever that stands, and the last of all other nodes for the value.

* `Role`: what a node is to the search.
* `operands`: the nodes that the search visits.
* `Assigns`, `RightAnswer`: what the search is meant to find.

Results:
* `assignment_eq`: the answer of the search, by the roles of the nodes that it visits.
* `assignment_right_iff`: when the answer is right.
* `assignment_misread`: the search takes the value of an assignment for its name.
-/

namespace Stepflow.Flow

open Outline (walkAll)

/-! ## Roles -/

/-- What a node is to the search for an assignment. -/
inductive Role where
  | assignment
  | name (text : String)
  | other
  deriving DecidableEq, Repr

/-- The role of a node of some kind. -/
def roleOf : Kind → Role
  | .assignmentExpression _ => .assignment
  | .identifier name => .name name
  | _ => .other

/-- The name of an identifier. -/
def Role.name? : Role → Option String
  | .name text => some text
  | _ => none

/-- The role of the node at a place. -/
def roleAt (a : Arena) (id : Nat) : Role :=
  ((a.kind? id).map roleOf).getD .other

/-- Places, each identifier among them followed by the places directly below it. -/
def withParts (a : Arena) (ids : List Nat) : List Nat :=
  ids.flatMap fun id => if (roleAt a id).name?.isSome then id :: a.below id else [id]

/-- The places that the search visits below an assignment. -/
def operands (a : Arena) (id : Nat) : List Nat :=
  withParts a (a.below id)

/-- The names of the identifiers at some places. -/
def names (a : Arena) (ids : List Nat) : List String :=
  ids.filterMap fun id => (roleAt a id).name?

/-- The places that hold neither an identifier nor an assignment. -/
def others (a : Arena) (ids : List Nat) : List Nat :=
  ids.filter fun id => roleAt a id = .other

/-- There are neither identifiers nor assignments at the places. -/
def AllOther (a : Arena) (ids : List Nat) : Prop :=
  ∀ id ∈ ids, roleAt a id = .other

instance (a : Arena) (ids : List Nat) : Decidable (AllOther a ids) :=
  inferInstanceAs (Decidable (∀ id ∈ ids, _))

/-- There is no assignment at the places, and at most one identifier. -/
def Readable (a : Arena) (ids : List Nat) : Prop :=
  (∀ id ∈ ids, roleAt a id ≠ .assignment) ∧ (names a ids).length ≤ 1

instance (a : Arena) (ids : List Nat) : Decidable (Readable a ids) :=
  inferInstanceAs (Decidable (_ ∧ _))

/-- What is read off the places: the name of the identifier, and the last place with something else.
    `name` and `value` stand for what is missing, and `id` is the answer if nothing can be read. -/
def reading (a : Arena) (ids : List Nat) (name : String) (value id : Nat) : String × Nat :=
  if Readable a ids then ((names a ids).headD name, (others a ids).getLastD value) else ("", id)

/-- The node at a place is an assignment with a name on its left and a value on its right. -/
def Assigns (a : Arena) (id : Nat) (name : String) (value : Nat) : Prop :=
  ∃ n operator target, a.node? id = some n ∧ n.kind = .assignmentExpression operator ∧
    n.firstIn? .left = some target ∧ a.kind? target = some (.identifier name) ∧
    n.firstIn? .right = some value

/-- An answer at a place is right: a name is answered for an assignment of the answered value to it,
    and an empty name with the place itself. -/
def RightAnswer (a : Arena) (id : Nat) (answer : String × Nat) : Prop :=
  (answer.1 ≠ "" → Assigns a id answer.1 answer.2) ∧ (answer.1 = "" → answer.2 = id)

/-! ## One visit -/

/-- What a visit does, and whether the search goes down. -/
theorem dispatch_assignmentVisitor (kind : Kind) (id : Nat) (s : AssignmentState) :
    (assignmentVisitor.dispatch kind id).run s =
      match roleOf kind with
      | .assignment =>
        ((s.turn.advance (some 0)).1, { s with turn := (s.turn.advance (some 0)).2 })
      | .name text =>
        ((s.turn.advance (some 1)).1, { s with turn := (s.turn.advance (some 1)).2, name := text })
      | .other => (false, { s with value := id }) := by
  cases kind <;> rfl

theorem advance_of_ne {t : Turn} {expected : Nat} (h : t.missed ∨ expected ≠ t.count) :
    t.advance (some expected) = (false, { count := t.count + 1, missed := true }) := by
  have : (!t.missed && some expected == some t.count) = false := by
    rcases h with h | h <;> simp [h]
  rw [Turn.advance, this]
  rfl

theorem advance_of_eq {t : Turn} (h : t.missed = false) :
    t.advance (some t.count) = (true, { count := t.count + 1, missed := false }) := by
  simp [Turn.advance, h]

theorem walk_of_other {o : Outline} (h : roleOf o.node.kind = .other) (s : AssignmentState) :
    ((o.walk assignmentVisitor).run s).2 = { s with value := o.place } := by
  rw [Outline.walk_run, dispatch_assignmentVisitor, h]

/-- A visit that comes at a wrong turn is the end of the search. -/
theorem missed_walk_of_assignment {o : Outline} (h : roleOf o.node.kind = .assignment)
    {s : AssignmentState} (hs : s.turn.missed ∨ 0 ≠ s.turn.count) :
    ((o.walk assignmentVisitor).run s).2.turn.missed = true := by
  rw [Outline.walk_run, dispatch_assignmentVisitor, h, advance_of_ne hs]

theorem missed_walk_of_name {o : Outline} {text : String} (h : roleOf o.node.kind = .name text)
    {s : AssignmentState} (hs : s.turn.missed ∨ 1 ≠ s.turn.count) :
    ((o.walk assignmentVisitor).run s).2.turn.missed = true := by
  rw [Outline.walk_run, dispatch_assignmentVisitor, h, advance_of_ne hs]

theorem missed_walk (o : Outline) {s : AssignmentState} (hs : s.turn.missed = true) :
    ((o.walk assignmentVisitor).run s).2.turn.missed = true := by
  cases h : roleOf o.node.kind with
  | assignment => exact missed_walk_of_assignment h (.inl hs)
  | name text => exact missed_walk_of_name h (.inl hs)
  | other => rw [walk_of_other h]; exact hs

theorem missed_walkAll (os : List Outline) {s : AssignmentState} (hs : s.turn.missed = true) :
    ((walkAll assignmentVisitor os).run s).2.turn.missed = true := by
  induction os generalizing s with
  | nil => exact hs
  | cons o os ih =>
    rw [Outline.walkAll_cons]
    exact ih (missed_walk o hs)

/-! ## The places that are visited -/

section Places

variable {a : Arena} {id : Nat} {ids : List Nat}

theorem roleAt_place {o : Outline} (h : a.Outlines o) : roleAt a o.place = roleOf o.node.kind := by
  rw [roleAt, Arena.kind?, h.node?_eq]
  rfl

theorem allOther_cons : AllOther a (id :: ids) ↔ roleAt a id = .other ∧ AllOther a ids :=
  List.forall_mem_cons

theorem subset_withParts (a : Arena) (ids : List Nat) : ids ⊆ withParts a ids := by
  intro id hid
  refine List.mem_flatMap.mpr ⟨id, hid, ?_⟩
  split <;> exact List.mem_cons_self

theorem withParts_cons (a : Arena) (id : Nat) (ids : List Nat) :
    withParts a (id :: ids) =
      (if (roleAt a id).name?.isSome then id :: a.below id else [id]) ++ withParts a ids :=
  List.flatMap_cons

theorem withParts_of_allOther (h : AllOther a ids) : withParts a ids = ids := by
  induction ids with
  | nil => rfl
  | cons id ids ih =>
    rw [withParts_cons, h id List.mem_cons_self, ih fun id hid => h id (List.mem_cons_of_mem _ hid)]
    rfl

theorem allOther_append_withParts {parts : List Nat} :
    AllOther a (parts ++ withParts a ids) ↔ AllOther a (parts ++ ids) := by
  constructor
  · intro h x hx
    refine h x ?_
    rcases List.mem_append.mp hx with hx | hx
    · exact List.mem_append_left _ hx
    · exact List.mem_append_right _ (subset_withParts a ids hx)
  · intro h
    rwa [withParts_of_allOther fun x hx => h x (List.mem_append_right _ hx)]

theorem others_of_allOther (h : AllOther a ids) : others a ids = ids := by
  rw [others, List.filter_eq_self]
  intro x hx
  rw [h x hx]
  rfl

theorem names_cons_name {text : String} (h : roleAt a id = .name text) :
    names a (id :: ids) = text :: names a ids := by
  rw [names, List.filterMap_cons_some (by rw [h]; rfl)]
  rfl

/-- Behind an identifier there may be neither identifiers nor assignments. -/
theorem readable_cons_name {text : String} (h : roleAt a id = .name text) :
    Readable a (id :: ids) ↔ AllOther a ids := by
  have hempty : (names a (id :: ids)).length ≤ 1 ↔ ∀ x ∈ ids, (roleAt a x).name? = none := by
    rw [names_cons_name h, List.length_cons, Nat.succ_le_succ_iff, Nat.le_zero,
      List.length_eq_zero_iff, names, List.filterMap_eq_nil_iff]
  rw [Readable, hempty]
  constructor
  · rintro ⟨hne, hnone⟩ x hx
    have hx1 := hne x (List.mem_cons_of_mem _ hx)
    have hx2 := hnone x hx
    cases hr : roleAt a x with
    | assignment => exact absurd hr hx1
    | name text => rw [hr] at hx2; cases hx2
    | other => rfl
  · intro hall
    refine ⟨?_, fun x hx => by rw [hall x hx]; rfl⟩
    intro x hx
    rcases List.mem_cons.mp hx with rfl | hx
    · rw [h]; exact nofun
    · rw [hall x hx]; exact nofun

theorem reading_cons_other (h : roleAt a id = .other) (name : String) (value top : Nat) :
    reading a (id :: ids) name value top = reading a ids name id top := by
  have hnames : names a (id :: ids) = names a ids := by
    rw [names, List.filterMap_cons_none (by rw [h]; rfl)]
    rfl
  have hothers : others a (id :: ids) = id :: others a ids := by
    rw [others, List.filter_cons_of_pos (by rw [h]; rfl)]
    rfl
  have hreadable : Readable a (id :: ids) ↔ Readable a ids := by
    rw [Readable, Readable, hnames, List.forall_mem_cons, h]
    simp
  simp only [reading, hreadable, hnames, hothers, List.getLastD_cons]

theorem reading_cons_assignment (h : roleAt a id = .assignment) (name : String) (value top : Nat) :
    reading a (id :: ids) name value top = ("", top) := by
  rw [reading, if_neg]
  rintro ⟨hne, -⟩
  exact hne id List.mem_cons_self h

theorem reading_cons_name {text : String} (h : roleAt a id = .name text) (name : String)
    (value top : Nat) :
    reading a (id :: ids) name value top =
      if AllOther a ids then (text, ids.getLastD value) else ("", top) := by
  have hothers : others a (id :: ids) = others a ids := by
    rw [others, List.filter_cons_of_neg (by rw [h]; exact nofun)]
    rfl
  simp only [reading, readable_cons_name h, names_cons_name h, hothers, List.headD_cons]
  split
  next hall => rw [others_of_allOther hall]
  next => rfl

end Places

/-! ## The answer -/

/-- The answer of the search for an assignment at a place. -/
def AssignmentState.answer (s : AssignmentState) (id : Nat) : String × Nat :=
  if s.turn.missed then ("", id) else (s.name, s.value)

theorem AssignmentState.answer_of_missed {s : AssignmentState} (h : s.turn.missed = true)
    (id : Nat) : s.answer id = ("", id) := by
  rw [answer, if_pos h]

section Answer

variable {a : Arena} {os : List Outline} {s : AssignmentState}

/-- With a name found, only nodes that are neither identifiers nor assignments may follow. -/
theorem answer_walkAll_of_named (hos : ∀ o ∈ os, a.Outlines o)
    (hs : s.turn = { count := 2, missed := false }) (id : Nat) :
    ((walkAll assignmentVisitor os).run s).2.answer id =
      if AllOther a (os.map (·.place)) then (s.name, (os.map (·.place)).getLastD s.value)
      else ("", id) := by
  induction os generalizing s with
  | nil => simp [AssignmentState.answer, hs, AllOther]
  | cons o os ih =>
    have hrole := roleAt_place (hos o List.mem_cons_self)
    have hos' : ∀ o ∈ os, a.Outlines o := fun o ho => hos o (List.mem_cons_of_mem _ ho)
    rw [Outline.walkAll_cons]
    cases h : roleOf o.node.kind with
    | other =>
      rw [walk_of_other h, ih (s := { s with value := o.place }) hos' hs]
      simp only [List.map_cons, allOther_cons, hrole, h, true_and, List.getLastD_cons]
    | assignment =>
      have hmissed := missed_walk_of_assignment h (s := s) (.inr (by rw [hs]; decide))
      rw [AssignmentState.answer_of_missed (missed_walkAll os hmissed), if_neg]
      simp [AllOther, hrole, h]
    | name text =>
      have hmissed := missed_walk_of_name h (s := s) (.inr (by rw [hs]; decide))
      rw [AssignmentState.answer_of_missed (missed_walkAll os hmissed), if_neg]
      simp [AllOther, hrole, h]

/-- Below an assignment the answer is read off the nodes that are visited. -/
theorem answer_walkAll (hos : ∀ o ∈ os, a.Outlines o)
    (hs : s.turn = { count := 1, missed := false }) (id : Nat) :
    ((walkAll assignmentVisitor os).run s).2.answer id =
      reading a (withParts a (os.map (·.place))) s.name s.value id := by
  induction os generalizing s with
  | nil => simp [AssignmentState.answer, hs, withParts, reading, Readable, names, others]
  | cons o os ih =>
    have ho := hos o List.mem_cons_self
    have hrole := roleAt_place ho
    have hos' : ∀ o ∈ os, a.Outlines o := fun o ho => hos o (List.mem_cons_of_mem _ ho)
    rw [Outline.walkAll_cons, List.map_cons, withParts_cons, hrole]
    cases h : roleOf o.node.kind with
    | other =>
      rw [h] at hrole
      rw [walk_of_other h, ih (s := { s with value := o.place }) hos' hs]
      exact (reading_cons_other hrole s.name s.value id).symm
    | assignment =>
      rw [h] at hrole
      have hmissed := missed_walk_of_assignment h (s := s) (.inr (by rw [hs]; decide))
      rw [AssignmentState.answer_of_missed (missed_walkAll os hmissed)]
      exact (reading_cons_assignment hrole s.name s.value id).symm
    | name text =>
      rw [h] at hrole
      -- The search goes down here and comes back to the nodes that follow, all with a name found.
      have hwalk : ((o.walk assignmentVisitor).run s).2 = ((walkAll assignmentVisitor o.parts).run
          { s with turn := { count := 2, missed := false }, name := text }).2 := by
        have hadvance := advance_of_eq (t := s.turn) (by rw [hs])
        rw [show s.turn.count = 1 by rw [hs]] at hadvance
        rw [Outline.walk_run, dispatch_assignmentVisitor, h, hadvance]
      have hall : ∀ o' ∈ o.parts ++ os, a.Outlines o' := by
        intro o' ho'
        rcases List.mem_append.mp ho' with ho' | ho'
        · exact ho.of_mem_parts ho'
        · exact hos' o' ho'
      rw [hwalk, ← Outline.walkAll_append, answer_walkAll_of_named hall rfl, List.map_append,
        ← ho.below_eq]
      have hreading : reading a (o.place :: (a.below o.place ++ withParts a (os.map (·.place))))
          s.name s.value id = _ := reading_cons_name hrole s.name s.value id
      refine Eq.trans ?_ hreading.symm
      simp only [allOther_append_withParts]
      split
      next hother =>
        rw [withParts_of_allOther fun x hx => hother x (List.mem_append_right _ hx)]
      next => rfl

end Answer

section Tree

variable (t : Tree) (source : List Char)

/-- At an assignment the answer is read off the nodes that are visited, elsewhere it is empty. -/
theorem assignment_eq {id : Nat} (hid : id < (Arena.ofTree t source).size) :
    assignment (Arena.ofTree t source) id =
      if roleAt (Arena.ofTree t source) id = .assignment then
        reading (Arena.ofTree t source) (operands (Arena.ofTree t source) id) "" id id
      else ("", id) := by
  obtain ⟨o, ho, rfl, -, hsize⟩ := Arena.exists_outline t source hid
  have hanswer : assignment (Arena.ofTree t source) o.place =
      ((o.walk assignmentVisitor).run { value := o.place }).2.answer o.place := by
    rw [← Arena.walk_eq_outline_walk ho hsize]
    rfl
  rw [hanswer, roleAt_place ho, Outline.walk_run, dispatch_assignmentVisitor]
  cases roleOf o.node.kind with
  | assignment =>
    rw [if_pos rfl, operands, ho.below_eq]
    exact answer_walkAll (fun _ hp => ho.of_mem_parts hp) rfl o.place
  | name text => rfl
  | other => rfl

/-- No node is among those that are visited below it. -/
theorem notMem_operands {id : Nat} (hid : id < (Arena.ofTree t source).size) :
    id ∉ operands (Arena.ofTree t source) id := by
  obtain ⟨o, ho, rfl, hnodup, -⟩ := Arena.exists_outline t source hid
  have hparts : ∀ x ∈ operands (Arena.ofTree t source) o.place, x ∈ Outline.placesAll o.parts := by
    intro x hx
    rw [operands, ho.below_eq, withParts, List.flatMap_map, List.mem_flatMap] at hx
    obtain ⟨o', ho', hx⟩ := hx
    rw [Outline.placesAll_eq, List.mem_flatMap]
    refine ⟨o', ho', ?_⟩
    split at hx
    · rw [(ho.of_mem_parts ho').below_eq, List.mem_cons, List.mem_map] at hx
      rcases hx with rfl | ⟨o'', ho'', rfl⟩
      · exact o'.place_mem_places
      · exact Outline.mem_places.mpr (.inr ⟨o'', ho'', o''.place_mem_places⟩)
    · rw [List.mem_singleton] at hx
      rw [hx]
      exact o'.place_mem_places
  intro hmem
  obtain ⟨id, n, parts⟩ := o
  rw [Outline.places, List.nodup_cons] at hnodup
  exact hnodup.1 (hparts id hmem)

variable {t source} in
/-- In an assignment by its fields, the search visits the identifier on the left. -/
theorem Assigns.name_mem {id value : Nat} {name : String}
    (h : Assigns (Arena.ofTree t source) id name value) :
    name ∈ names (Arena.ofTree t source) (operands (Arena.ofTree t source) id) := by
  obtain ⟨n, operator, target, hn, -, hleft, hkind, -⟩ := h
  refine List.mem_filterMap.mpr ⟨target, subset_withParts _ _ ?_, ?_⟩
  · exact Arena.mem_below_of_firstIn? hn hleft
  · rw [roleAt, hkind]
    rfl

variable {t source} in
theorem Assigns.value_mem {id value : Nat} {name : String}
    (h : Assigns (Arena.ofTree t source) id name value) :
    value ∈ operands (Arena.ofTree t source) id := by
  obtain ⟨n, operator, target, hn, -, -, -, hright⟩ := h
  exact subset_withParts _ _ (Arena.mem_below_of_firstIn? hn hright)

/-- An answer that is read off the visited nodes is right if nothing was found, or if the node
    assigns by its fields and the value is the last that was visited. -/
theorem rightAnswer_reading_iff {id : Nat} (hid : id < (Arena.ofTree t source).size)
    (hread : Readable (Arena.ofTree t source) (operands (Arena.ofTree t source) id)) :
    RightAnswer (Arena.ofTree t source) id
      (reading (Arena.ofTree t source) (operands (Arena.ofTree t source) id) "" id id) ↔
    (names (Arena.ofTree t source) (operands (Arena.ofTree t source) id)).headD "" = "" ∧
      others (Arena.ofTree t source) (operands (Arena.ofTree t source) id) = [] ∨
    ∃ name value, name ≠ "" ∧ Assigns (Arena.ofTree t source) id name value ∧
      (others (Arena.ofTree t source) (operands (Arena.ofTree t source) id)).getLast? =
        some value := by
  have hself := notMem_operands t source hid
  -- With one identifier at most, any name that is found is the answer.
  have hname : ∀ name value, Assigns (Arena.ofTree t source) id name value →
      (names (Arena.ofTree t source) (operands (Arena.ofTree t source) id)).headD "" = name := by
    intro name value h
    obtain ⟨first, hfirst⟩ := List.length_eq_one_iff.mp
      (Nat.le_antisymm hread.2 (List.length_pos_of_mem h.name_mem))
    have hmem := h.name_mem
    rw [hfirst, List.mem_singleton] at hmem
    rw [hfirst, hmem]
    rfl
  rw [RightAnswer, reading, if_pos hread]
  cases hlast : (others (Arena.ofTree t source) (operands (Arena.ofTree t source) id)).getLast? with
  | none =>
    have hnil := List.getLast?_eq_none_iff.mp hlast
    simp only [hnil, List.getLastD_nil, and_true]
    constructor
    · rintro ⟨hassigns, -⟩
      refine .inl ?_
      by_contra hne
      exact hself (hassigns hne).value_mem
    · rintro (hempty | ⟨name, value, -, -, hvalue⟩)
      · exact ⟨fun hne => absurd hempty hne, fun _ => trivial⟩
      · cases hvalue
  | some value =>
    have hvalue : (others (Arena.ofTree t source)
        (operands (Arena.ofTree t source) id)).getLastD id = value := by
      rw [List.getLastD_eq_getLast?, hlast]
      rfl
    have hmem : value ∈ operands (Arena.ofTree t source) id :=
      (List.mem_filter.mp (List.mem_of_getLast? hlast)).1
    simp only [hvalue]
    constructor
    · rintro ⟨hassigns, hempty⟩
      by_cases hne : (names (Arena.ofTree t source)
          (operands (Arena.ofTree t source) id)).headD "" = ""
      · exact absurd (hempty hne ▸ hmem) hself
      · exact .inr ⟨_, value, hne, hassigns hne, rfl⟩
    · rintro (⟨-, hnil⟩ | ⟨name, value', hne, hassigns, hvalue'⟩)
      · rw [hnil] at hlast
        cases hlast
      · obtain rfl := Option.some.inj hvalue'
        rw [hname name value hassigns]
        exact ⟨fun _ => hassigns, fun h => absurd h hne⟩

/-- The search answers rightly in these cases and no others: there is no assignment at the place;
    the search gives up; it finds neither a name nor a value; the node assigns a value to a name by
    its fields, and that value is the last one that the search finds. -/
theorem assignment_right_iff (id : Fin (Arena.ofTree t source).size) :
    RightAnswer (Arena.ofTree t source) id (assignment (Arena.ofTree t source) id) ↔
    roleAt (Arena.ofTree t source) id ≠ .assignment ∨
    ¬ Readable (Arena.ofTree t source) (operands (Arena.ofTree t source) id) ∨
    (names (Arena.ofTree t source) (operands (Arena.ofTree t source) id)).headD "" = "" ∧
      others (Arena.ofTree t source) (operands (Arena.ofTree t source) id) = [] ∨
    ∃ name value, name ≠ "" ∧ Assigns (Arena.ofTree t source) id name value ∧
      (others (Arena.ofTree t source) (operands (Arena.ofTree t source) id)).getLast? =
        some value := by
  have hempty : RightAnswer (Arena.ofTree t source) id ("", id) :=
    ⟨fun hne => absurd rfl hne, fun _ => rfl⟩
  rw [assignment_eq t source id.isLt]
  by_cases hrole : roleAt (Arena.ofTree t source) id = .assignment
  · rw [if_pos hrole]
    by_cases hread : Readable (Arena.ofTree t source) (operands (Arena.ofTree t source) id)
    · rw [rightAnswer_reading_iff t source id.isLt hread]
      simp only [ne_eq, hrole, hread, not_true, false_or]
    · rw [reading, if_neg hread]
      exact iff_of_true hempty (.inr (.inl hread))
  · rw [if_neg hrole]
    exact iff_of_true hempty (.inl hrole)

end Tree

/-- The tree of `x.y = z`. -/
def memberAssignment : Tree where
  kind := .assignmentExpression "="
  span := { start := 1, stop := 8 }
  fields := [(.left, .leaf (.other "MemberExpression") { start := 1, stop := 4 }),
    (.right, .leaf (.identifier "z") { start := 7, stop := 8 })]

/-- In `x.y = z` the value is taken for the name, and the target for the value. -/
theorem assignment_misread :
    ¬ RightAnswer (Arena.ofTree memberAssignment "x.y = z".toList) 0
      (assignment (Arena.ofTree memberAssignment "x.y = z".toList) 0) := by
  have hanswer : assignment (Arena.ofTree memberAssignment "x.y = z".toList) 0 = ("z", 1) := by cbv
  have hright : ((Arena.ofTree memberAssignment "x.y = z".toList).node? 0).bind
      (·.firstIn? .right) = some 2 := by cbv
  rw [hanswer]
  rintro ⟨hassigns, -⟩
  obtain ⟨n, operator, target, hn, -, -, -, hvalue⟩ := hassigns (by decide)
  rw [hn, Option.bind_some, hvalue] at hright
  cases hright

end Stepflow.Flow
