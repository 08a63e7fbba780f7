import Mathlib
import Stepflow.Proofs.Traversal

/-!
# Wrappers

A group or a list under a field of a node stands for its members, each of them under that field. The
arena does not tell the two apart, not even where nodes have equal spans and keep the order in which
they are collected.

* `Branch.Unwraps`: some wrappers are replaced by their members, at any depth.
* `Branch.Bare`: there is no wrapper left.
* `Tree.bare`: the tree with all wrappers replaced.

Results:
* `Tree.unwraps_bare`, `Tree.isBare_bare`: all wrappers of a tree can be replaced.
* `Branch.Unwraps.bareIn_eq`: in whatever order that is done, the same nodes are left.
* `Branch.pushFields_bareIn`: a branch is collected as the nodes that it stands for.
* `Arena.ofTree_unwraps`: the arena stays the same.
-/

namespace Stepflow

namespace Branch

/-- Wrappers under fields of nodes are replaced by their members, each under the field of the
    wrapper and at its place. The fields that a group gives to its members do not count, and a
    wrapper without members goes away. -/
inductive Unwraps : Branch → Branch → Prop
  | group {kind : Kind} {span : Span} (before after : List (Field × Branch)) (f : Field)
      (entries : List (Field × Branch)) :
      Unwraps (node kind span (before ++ (f, group entries) :: after))
        (node kind span (before ++ entries.map (fun e => (f, e.2)) ++ after))
  | list {kind : Kind} {span : Span} (before after : List (Field × Branch)) (f : Field)
      (items : List Branch) :
      Unwraps (node kind span (before ++ (f, list items) :: after))
        (node kind span (before ++ items.map (fun b => (f, b)) ++ after))
  | inField {kind : Kind} {span : Span} {f : Field} {b c : Branch}
      (before after : List (Field × Branch)) (below : Unwraps b c) :
      Unwraps (node kind span (before ++ (f, b) :: after))
        (node kind span (before ++ (f, c) :: after))
  | inEntry {f : Field} {b c : Branch} (before after : List (Field × Branch))
      (below : Unwraps b c) :
      Unwraps (group (before ++ (f, b) :: after)) (group (before ++ (f, c) :: after))
  | inItem {b c : Branch} (before after : List Branch) (below : Unwraps b c) :
      Unwraps (list (before ++ b :: after)) (list (before ++ c :: after))
  | refl (b : Branch) : Unwraps b b
  | trans {b c d : Branch} (first : Unwraps b c) (second : Unwraps c d) : Unwraps b d

/-- There are only nodes in a branch. -/
inductive Bare : Branch → Prop
  | node {kind : Kind} {span : Span} {fields : List (Field × Branch)}
      (below : ∀ e ∈ fields, Bare e.2) : Bare (node kind span fields)

mutual

/-- The nodes that a branch stands for under a field, with no wrapper left in them. -/
def bareIn (field : Field) : Branch → List (Field × Branch)
  | node kind span fields => [(field, node kind span (bareFields fields))]
  | group entries => bareEntries field entries
  | list items => bareItems field items

/-- The nodes that entries stand for, each under its own field. -/
def bareFields : List (Field × Branch) → List (Field × Branch)
  | [] => []
  | (field, b) :: entries => bareIn field b ++ bareFields entries

/-- The nodes that entries stand for, all under one field. -/
def bareEntries (field : Field) : List (Field × Branch) → List (Field × Branch)
  | [] => []
  | (_, b) :: entries => bareIn field b ++ bareEntries field entries

/-- The nodes that branches stand for, all under one field. -/
def bareItems (field : Field) : List Branch → List (Field × Branch)
  | [] => []
  | b :: items => bareIn field b ++ bareItems field items

end

end Branch

/-- The tree with all its wrappers replaced by their members. -/
def Tree.bare (t : Tree) : Tree :=
  { t with fields := Branch.bareFields t.fields }

namespace Branch

/-! ## All wrappers replaced -/

theorem bareFields_append (xs ys : List (Field × Branch)) :
    bareFields (xs ++ ys) = bareFields xs ++ bareFields ys := by
  induction xs with
  | nil => rfl
  | cons e xs ih =>
    obtain ⟨f, b⟩ := e
    rw [List.cons_append, bareFields, bareFields, ih, List.append_assoc]

theorem bareFields_cons (f : Field) (b : Branch) (entries : List (Field × Branch)) :
    bareFields ((f, b) :: entries) = bareIn f b ++ bareFields entries := by
  rw [bareFields]

theorem bareEntries_eq (f : Field) (entries : List (Field × Branch)) :
    bareEntries f entries = bareFields (entries.map fun e => (f, e.2)) := by
  induction entries with
  | nil => rfl
  | cons e entries ih =>
    obtain ⟨g, b⟩ := e
    rw [bareEntries, ih, List.map_cons, bareFields]

theorem bareItems_eq (f : Field) (items : List Branch) :
    bareItems f items = bareFields (items.map fun b => (f, b)) := by
  induction items with
  | nil => rfl
  | cons b items ih => rw [bareItems, ih, List.map_cons, bareFields]

/-- A wrapper stands for its parts, all of them under the field of the wrapper. -/
theorem bareIn_of_wrapper {b : Branch} (h : b.tree? = none) (f : Field) :
    b.bareIn f = bareFields (b.parts.map fun c => (f, c)) := by
  cases b with
  | node kind span fields => cases h
  | group entries => rw [bareIn, bareEntries_eq, parts, List.map_map]; rfl
  | list items => rw [bareIn, bareItems_eq]; rfl

theorem bareIn_of_tree? {b : Branch} {t : Tree} (h : b.tree? = some t) (f : Field) :
    b.bareIn f = [(f, t.bare.branch)] := by
  rw [eq_branch_of_tree? h, Tree.branch, bareIn]
  rfl

/-- One step for a wrapper of either sort. -/
theorem Unwraps.wrapper {kind : Kind} {span : Span} (before after : List (Field × Branch))
    (f : Field) {b : Branch} (h : b.tree? = none) :
    Unwraps (.node kind span (before ++ (f, b) :: after))
      (.node kind span (before ++ b.parts.map (fun c => (f, c)) ++ after)) := by
  cases b with
  | node kind span fields => cases h
  | group entries =>
    rw [parts, List.map_map]
    exact .group before after f entries
  | list items => exact .list before after f items

/-- Entries of a node can be unwrapped one after the other. -/
theorem Unwraps.entries {kind : Kind} {span : Span} {entries : List (Field × Branch)}
    (h : ∀ e ∈ entries, ∀ (f : Field) (before after : List (Field × Branch)),
      Unwraps (.node kind span (before ++ (f, e.2) :: after))
        (.node kind span (before ++ e.2.bareIn f ++ after)))
    (before after : List (Field × Branch)) :
    Unwraps (.node kind span (before ++ entries ++ after))
      (.node kind span (before ++ bareFields entries ++ after)) := by
  induction entries generalizing before with
  | nil => exact .refl _
  | cons e entries ih =>
    obtain ⟨f, b⟩ := e
    have hfirst := h (f, b) List.mem_cons_self f before (entries ++ after)
    have hrest := ih (fun e he => h e (List.mem_cons_of_mem _ he)) (before ++ b.bareIn f)
    rw [bareFields_cons]
    simp only [List.append_assoc, List.cons_append] at hfirst hrest ⊢
    exact hfirst.trans hrest

/-- All entries of a node can be unwrapped, if each one can. -/
theorem Unwraps.fields {kind : Kind} {span : Span} {entries : List (Field × Branch)}
    (h : ∀ e ∈ entries, ∀ (f : Field) (before after : List (Field × Branch)),
      Unwraps (.node kind span (before ++ (f, e.2) :: after))
        (.node kind span (before ++ e.2.bareIn f ++ after))) :
    Unwraps (.node kind span entries) (.node kind span (bareFields entries)) := by
  have hall := Unwraps.entries h [] []
  rwa [List.nil_append, List.nil_append, List.append_nil, List.append_nil] at hall

/-- An entry of a node can be unwrapped completely. -/
theorem Unwraps.entry (b : Branch) {kind : Kind} {span : Span} (f : Field)
    (before after : List (Field × Branch)) :
    Unwraps (.node kind span (before ++ (f, b) :: after))
      (.node kind span (before ++ b.bareIn f ++ after)) := by
  induction b using parts_induction generalizing kind span f before after with
  | step b ih =>
    cases h : b.tree? with
    | none =>
      refine (Unwraps.wrapper before after f h).trans ?_
      rw [bareIn_of_wrapper h]
      refine Unwraps.entries (fun e he f before after => ?_) before after
      obtain ⟨c, hc, rfl⟩ := List.mem_map.mp he
      exact ih c hc f before after
    | some t =>
      rw [bareIn_of_tree? h, List.append_assoc, List.singleton_append]
      obtain rfl := eq_branch_of_tree? h
      refine .inField before after (Unwraps.fields fun e he => ?_)
      exact ih e.2 (List.mem_map_of_mem he)

theorem bare_of_mem_bareFields {entries : List (Field × Branch)}
    (h : ∀ e ∈ entries, ∀ f, ∀ e' ∈ e.2.bareIn f, e'.2.Bare) :
    ∀ e ∈ bareFields entries, e.2.Bare := by
  induction entries with
  | nil => exact List.forall_mem_nil _
  | cons e entries ih =>
    obtain ⟨f, b⟩ := e
    rw [bareFields_cons]
    exact List.forall_mem_append.mpr ⟨h (f, b) List.mem_cons_self f,
      ih fun e he => h e (List.mem_cons_of_mem _ he)⟩

theorem bare_of_mem_bareIn (b : Branch) (f : Field) : ∀ e ∈ b.bareIn f, e.2.Bare := by
  induction b using parts_induction generalizing f with
  | step b ih =>
    cases h : b.tree? with
    | none =>
      rw [bareIn_of_wrapper h]
      refine bare_of_mem_bareFields fun e he => ?_
      obtain ⟨c, hc, rfl⟩ := List.mem_map.mp he
      exact ih c hc
    | some t =>
      rw [bareIn_of_tree? h]
      obtain rfl := eq_branch_of_tree? h
      refine List.forall_mem_singleton.mpr (.node ?_)
      exact bare_of_mem_bareFields fun e he => ih e.2 (List.mem_map_of_mem he)

/-- What has no wrappers stands for itself. -/
theorem Bare.bareIn_eq {b : Branch} (h : b.Bare) (f : Field) : b.bareIn f = [(f, b)] := by
  induction h generalizing f with
  | @node kind span fields _ ih =>
    have hfields : ∀ entries : List (Field × Branch), (∀ e ∈ entries, e ∈ fields) →
        bareFields entries = entries := by
      intro entries hmem
      induction entries with
      | nil => rfl
      | cons e entries ih' =>
        obtain ⟨g, c⟩ := e
        rw [bareFields_cons, ih _ (hmem _ List.mem_cons_self) g,
          ih' fun e he => hmem e (List.mem_cons_of_mem _ he), List.singleton_append]
    rw [bareIn, hfields fields fun _ he => he]

/-- In whatever order wrappers are replaced, the same nodes are left in the end. -/
theorem Unwraps.bareIn_eq {b c : Branch} (h : b.Unwraps c) (f : Field) :
    c.bareIn f = b.bareIn f := by
  induction h generalizing f with
  | group before after g entries =>
    rw [bareIn, bareIn, bareFields_append, bareFields_append, bareFields_append, bareFields_cons,
      bareIn, bareEntries_eq, List.append_assoc]
  | list before after g items =>
    rw [bareIn, bareIn, bareFields_append, bareFields_append, bareFields_append, bareFields_cons,
      bareIn, bareItems_eq, List.append_assoc]
  | inField before after _ ih =>
    rw [bareIn, bareIn, bareFields_append, bareFields_append, bareFields_cons, bareFields_cons, ih]
  | inEntry before after _ ih =>
    rw [bareIn, bareIn, bareEntries_eq, bareEntries_eq, List.map_append, List.map_append,
      bareFields_append, bareFields_append, List.map_cons, List.map_cons, bareFields_cons,
      bareFields_cons, ih]
  | inItem before after _ ih =>
    rw [bareIn, bareIn, bareItems_eq, bareItems_eq, List.map_append, List.map_append,
      bareFields_append, bareFields_append, List.map_cons, List.map_cons, bareFields_cons,
      bareFields_cons, ih]
  | refl => rfl
  | trans _ _ ih₁ ih₂ => rw [ih₂, ih₁]

/-! ## The collection -/

theorem pushFields_append (found : List (Field × Plain)) (xs ys : List (Field × Branch)) :
    pushFields found (xs ++ ys) = pushFields (pushFields found xs) ys := by
  induction xs generalizing found with
  | nil => rfl
  | cons e xs ih =>
    obtain ⟨f, b⟩ := e
    rw [List.cons_append, pushFields, pushFields, ih]

theorem pushFields_bareFields {entries : List (Field × Branch)}
    (h : ∀ e ∈ entries, ∀ f found, pushFields found (e.2.bareIn f) = e.2.push f found)
    (found : List (Field × Plain)) :
    pushFields found (bareFields entries) = pushFields found entries := by
  induction entries generalizing found with
  | nil => rfl
  | cons e entries ih =>
    obtain ⟨f, b⟩ := e
    rw [bareFields_cons, pushFields_append, h (f, b) List.mem_cons_self,
      ih fun e he => h e (List.mem_cons_of_mem _ he), pushFields]

/-- A branch is collected as the nodes that it stands for, and in their order. -/
theorem pushFields_bareIn (b : Branch) (f : Field) (found : List (Field × Plain)) :
    pushFields found (b.bareIn f) = b.push f found := by
  induction b using parts_induction generalizing f found with
  | step b ih =>
    cases h : b.tree? with
    | none =>
      rw [bareIn_of_wrapper h, push_of_wrapper h]
      refine pushFields_bareFields (fun e he => ?_) found
      obtain ⟨c, hc, rfl⟩ := List.mem_map.mp he
      exact ih c hc
    | some t =>
      obtain rfl := eq_branch_of_tree? h
      have hplain : t.bare.plain = t.plain := by
        rw [Tree.plain, Tree.plain]
        congr 1
        exact pushFields_bareFields (fun e he => ih e.2 (List.mem_map_of_mem he)) []
      rw [bareIn_of_tree? h, push_of_tree? h, pushFields, pushFields,
        push_of_tree? (t := t.bare) rfl, hplain]

/-- Replacing wrappers does not change what is collected, nor its order. -/
theorem Unwraps.push_eq {b c : Branch} (h : b.Unwraps c) (f : Field)
    (found : List (Field × Plain)) : c.push f found = b.push f found := by
  rw [← pushFields_bareIn, ← pushFields_bareIn, h.bareIn_eq]

end Branch

/-! ## Trees -/

namespace Tree

variable {t u : Tree}

theorem unwraps_bare (t : Tree) : t.branch.Unwraps t.bare.branch :=
  Branch.Unwraps.fields fun e _ => Branch.Unwraps.entry e.2

theorem isBare_bare (t : Tree) : t.bare.branch.Bare :=
  .node (Branch.bare_of_mem_bareFields fun e _ => e.2.bare_of_mem_bareIn)

theorem branch_injective (h : t.branch = u.branch) : t = u := by
  obtain ⟨kind, span, fields⟩ := t
  obtain ⟨kind', span', fields'⟩ := u
  cases h
  rfl

/-- A tree without wrappers that is left of a tree is the one that has them all replaced. -/
theorem eq_bare (h : t.branch.Unwraps u.branch) (hbare : u.branch.Bare) : u = t.bare := by
  have hfound := h.bareIn_eq .body
  rw [hbare.bareIn_eq, Branch.bareIn_of_tree? (t := t) rfl] at hfound
  exact branch_injective (Prod.mk.inj (List.singleton_inj.mp hfound)).2

theorem plain_eq (h : t.branch.Unwraps u.branch) : u.plain = t.plain := by
  have hfound := h.push_eq .body []
  rw [Branch.push_of_tree? (t := u) rfl, Branch.push_of_tree? (t := t) rfl] at hfound
  exact (Prod.mk.inj (List.singleton_inj.mp hfound)).2

end Tree

/-! ## Arenas -/

namespace Arena

/-- Wrappers under fields of nodes can be replaced by their members, at any depth and as many of
    them as one likes: the arena stays the same. All wrappers of a tree can be replaced, and the
    tree of nodes that is left is always the same one. -/
theorem ofTree_unwraps (t : Tree) (source : List Char) :
    (∀ u : Tree, t.branch.Unwraps u.branch →
      ofTree u source = ofTree t source ∧ (u.branch.Bare → u = t.bare)) ∧
    t.branch.Unwraps t.bare.branch ∧ t.bare.branch.Bare ∧
    ofTree t.bare source = ofTree t source := by
  have harena : ∀ u : Tree, t.branch.Unwraps u.branch → ofTree u source = ofTree t source := by
    intro u hu
    have hstaging : Staging.ofTree u = Staging.ofTree t := by
      rw [Staging.ofTree, Staging.ofTree, Tree.plain_eq hu]
    rw [ofTree_eq, ofTree_eq, hstaging]
  exact ⟨fun u hu => ⟨harena u hu, Tree.eq_bare hu⟩, t.unwraps_bare, t.isBare_bare,
    harena t.bare t.unwraps_bare⟩

/-- Three names with the same span. Two of them lie in wrappers, and one wrapper is empty. -/
def wrapped : Tree where
  kind := .module
  span := { start := 1, stop := 3 }
  fields := [
    (.body, .list [.leaf (.identifier "a") { start := 1, stop := 2 },
      .group [(.left, .list []), (.right, .leaf (.identifier "b") { start := 1, stop := 2 })]]),
    (.test, .leaf (.identifier "c") { start := 1, stop := 2 })]

/-- The same names with one wrapper replaced. -/
def halfWrapped : Tree where
  kind := .module
  span := { start := 1, stop := 3 }
  fields := [
    (.body, .leaf (.identifier "a") { start := 1, stop := 2 }),
    (.body, .group [(.left, .list []),
      (.right, .leaf (.identifier "b") { start := 1, stop := 2 })]),
    (.test, .leaf (.identifier "c") { start := 1, stop := 2 })]

/-- The last name comes first, wrapped or not. -/
theorem halfWrapped_arena :
    wrapped.branch.Unwraps halfWrapped.branch ∧
    ofTree halfWrapped "xy".toList = ofTree wrapped "xy".toList ∧
    wrapped.bare.fields.map (·.1) = [.body, .body, .test] ∧
    ofTree wrapped.bare "xy".toList = ofTree wrapped "xy".toList ∧
    (ofTree wrapped "xy".toList).nodes.toList.map (·.kind) =
      [.module, .identifier "c", .identifier "b", .identifier "a"] := by
  have h : wrapped.branch.Unwraps halfWrapped.branch := .list [] [_] .body [_, _]
  obtain ⟨hunwraps, -, -, hbare⟩ := ofTree_unwraps wrapped "xy".toList
  exact ⟨h, (hunwraps halfWrapped h).1, rfl, hbare, by cbv⟩

end Arena

end Stepflow
