import Mathlib.Data.List.Basic
import Stepflow.Proofs.Collection

/-!
# The loop over waiting branches

The loop takes one waiting branch after the other. What it does to the collection until a branch and
all that comes from it is done is what recursion says: the nodes of the branch get consecutive
numbers, and the topmost ones are entered in one list and at one node.

* `Collection.Fits`: a list and a node in which nodes can be entered.
* `Collection.enter`: enters trees in a list and at a node, and adds all their nodes.

Results:
* `Collection.enter_append`: trees can be entered one after the other.
* `Collection.add_enter`: a node is collected first, and what it holds is entered in its own list.
* `Collection.collect_fields`, `Collection.enters`: until branches are done, the loop enters their
  nodes.
* `Collection.ofTree_eq`: the loop collects the nodes of the recursion.
* `Arena.ofTree_eq`: the arena of a tree is made of the nodes of the recursion.
-/

namespace Stepflow

open Plain (numbers stages sizes)

/-! ## Arrays -/

section Arrays

variable {α : Type} {xs : Array α} {i : Nat}

theorem modify_id (xs : Array α) (i : Nat) : (xs.modify i fun x => x) = xs := by
  refine Array.ext_getElem? fun j => ?_
  grind

theorem modify_append_modify (h : i < xs.size) (ys : Array α) (f g : α → α) :
    (xs.modify i f ++ ys).modify i g = xs.modify i (g ∘ f) ++ ys := by
  refine Array.ext_getElem? fun j => ?_
  grind

theorem modify_push (h : i < xs.size) (x : α) (f : α → α) :
    (xs.push x).modify i f = (xs.modify i f).push x := by
  refine Array.ext_getElem? fun j => ?_
  grind

theorem modify_push_size (h : xs.size = i) (x : α) (f : α → α) :
    (xs.push x).modify i f = xs.push (f x) := by
  refine Array.ext_getElem? fun j => ?_
  grind

end Arrays

/-! ## Nodes of the recursion -/

namespace Staged

/-- A node of the recursion as the loop collects it under a number. Its list has the next number,
    since the first list belongs to no node. -/
def collected (s : Staged) (id : Nat) : Collected where
  kind := s.kind
  span := s.span
  list := id + 1
  fields := s.children.toArray

/-- Nodes of the recursion, collected under consecutive numbers. -/
def collectedFrom (base : Nat) : List Staged → List Collected
  | [] => []
  | s :: nodes => s.collected base :: collectedFrom (base + 1) nodes

theorem collectedFrom_append (base : Nat) (xs ys : List Staged) :
    collectedFrom base (xs ++ ys) =
      collectedFrom base xs ++ collectedFrom (base + xs.length) ys := by
  induction xs generalizing base with
  | nil => rfl
  | cons s xs ih =>
    rw [List.cons_append, collectedFrom, collectedFrom, ih, List.length_cons, List.cons_append,
      Nat.add_right_comm, Nat.add_assoc]

theorem getElem?_collectedFrom (base : Nat) (nodes : List Staged) (i : Nat) :
    (collectedFrom base nodes)[i]? = nodes[i]?.map fun s => s.collected (base + i) := by
  induction nodes generalizing base i with
  | nil => rfl
  | cons s nodes ih =>
    cases i with
    | zero => rfl
    | succ i => rw [collectedFrom, List.getElem?_cons_succ, ih, List.getElem?_cons_succ,
        Nat.add_right_comm, Nat.add_assoc]

theorem length_collectedFrom (base : Nat) (nodes : List Staged) :
    (collectedFrom base nodes).length = nodes.length := by
  induction nodes generalizing base with
  | nil => rfl
  | cons s nodes ih => rw [collectedFrom, List.length_cons, ih, List.length_cons]

/-- The list of the nodes that a node holds. -/
def held (s : Staged) : Array Nat :=
  (s.children.map (·.2)).toArray

end Staged

/-! ## Entering trees -/

namespace Collection

/-- Every node has a list, and nodes can be entered in the list and at the node with these
    numbers. -/
structure Fits (c : Collection) (list parent : Nat) : Prop where
  lists : c.lists.size = c.nodes.size + 1
  list : list < c.lists.size
  parent : parent < c.nodes.size

/-- Enters trees in a list and at a node, and adds all their nodes. -/
def enter (c : Collection) (list parent : Nat) (found : List (Field × Plain)) : Collection where
  nodes :=
    (c.nodes.modify parent fun n =>
      { n with fields := n.fields ++ (numbers c.nodes.size found).toArray }) ++
    (Staged.collectedFrom c.nodes.size (stages c.nodes.size found)).toArray
  lists :=
    c.lists.modify list (· ++ ((numbers c.nodes.size found).map (·.2)).toArray) ++
    ((stages c.nodes.size found).map Staged.held).toArray

variable {c : Collection} {list parent : Nat}

theorem size_nodes_enter (c : Collection) (list parent : Nat) (found : List (Field × Plain)) :
    (c.enter list parent found).nodes.size = c.nodes.size + sizes found := by
  simp [enter, Staged.length_collectedFrom, Plain.length_stages]

theorem size_lists_enter (c : Collection) (list parent : Nat) (found : List (Field × Plain)) :
    (c.enter list parent found).lists.size = c.lists.size + sizes found := by
  simp [enter, Plain.length_stages]

theorem Fits.enter (h : c.Fits list parent) (found : List (Field × Plain)) :
    (c.enter list parent found).Fits list parent := by
  obtain ⟨hlists, hlist, hparent⟩ := h
  constructor
  · rw [size_nodes_enter, size_lists_enter]
    omega
  · rw [size_lists_enter]
    omega
  · rw [size_nodes_enter]
    omega

theorem enter_nil (c : Collection) (list parent : Nat) : c.enter list parent [] = c := by
  simp [enter, numbers, stages, Staged.collectedFrom, modify_id]

/-- Trees can be entered one after the other. -/
theorem enter_append (h : c.Fits list parent) (xs ys : List (Field × Plain)) :
    (c.enter list parent xs).enter list parent ys = c.enter list parent (xs ++ ys) := by
  rw [Collection.enter, size_nodes_enter]
  simp only [Collection.enter, mk.injEq]
  rw [modify_append_modify h.parent, modify_append_modify h.list, Plain.numbers_append,
    Plain.stages_append, Staged.collectedFrom_append, Plain.length_stages]
  simp [Function.comp_def]

/-- A node is collected first, and what it holds is entered in its own list. -/
theorem add_enter (h : c.Fits list parent) (field : Field) (kind : Kind) (span : Span)
    (children : List (Field × Plain)) :
    (c.add list (some (parent, field)) kind span).enter c.lists.size c.nodes.size children =
      c.enter list parent [(field, ⟨kind, span, children⟩)] := by
  have hown : c.lists.size = c.nodes.size + 1 := h.lists
  have hnodes : (c.nodes.modify parent fun n =>
      { n with fields := n.fields.push (field, c.nodes.size) }).size = c.nodes.size :=
    Array.size_modify
  have hlists : (c.lists.modify list (·.push c.nodes.size)).size = c.lists.size :=
    Array.size_modify
  simp only [add, Collection.enter, mk.injEq, Array.size_push, hnodes]
  rw [modify_push h.list, modify_push_size hnodes, modify_push_size hlists]
  simp [numbers, stages, Plain.stage, Staged.collectedFrom, Staged.collected, Staged.held, h.lists]

theorem Fits.add (h : c.Fits list parent) (field : Field) (kind : Kind) (span : Span) :
    (c.add list (some (parent, field)) kind span).Fits c.lists.size c.nodes.size := by
  have hlists := h.lists
  constructor
  · simp [Collection.add, hlists]
  · simp [Collection.add]
  · simp [Collection.add]

/-! ## The loop -/

/-- Until a branch is done, the loop enters its nodes. -/
def Enters (b : Branch) : Prop :=
  ∀ {c : Collection} {list parent : Nat}, c.Fits list parent → ∀ field waiting,
    c.collect (⟨list, some (parent, field), b⟩ :: waiting) =
      (c.enter list parent (b.push field [])).collect waiting

/-- Until the branches of a node are done, the last one first, the loop enters their nodes. -/
theorem collect_fields {entries : List (Field × Branch)}
    (ih : ∀ entry ∈ entries, Enters entry.2) (h : c.Fits list parent) (waiting : List Pending) :
    c.collect ((Pending.ofFields parent list entries).reverse ++ waiting) =
      (c.enter list parent (Branch.pushFields [] entries)).collect waiting := by
  induction entries generalizing waiting with
  | nil => rw [Branch.pushFields, enter_nil]; rfl
  | cons entry entries ih' =>
    obtain ⟨field, b⟩ := entry
    rw [List.forall_mem_cons] at ih
    have hrest := ih' ih.2 (⟨list, some (parent, field), b⟩ :: waiting)
    have hstack : (Pending.ofFields parent list ((field, b) :: entries)).reverse ++ waiting =
        (Pending.ofFields parent list entries).reverse ++
          ⟨list, some (parent, field), b⟩ :: waiting := by
      simp [Pending.ofFields]
    rw [hstack, hrest, ih.1 (h.enter _), enter_append h, Branch.pushFields_cons]

theorem enters (b : Branch) : Enters b := by
  induction b using Branch.parts_induction with
  | step b ih =>
    intro c list parent h field waiting
    cases b with
    | node kind span fields =>
      have hfields : ∀ entry ∈ fields, Enters entry.2 :=
        fun entry hentry => ih entry.2 (List.mem_map_of_mem hentry)
      rw [collect, collect_fields hfields (h.add field kind span), add_enter h, Branch.push]
    | group entries =>
      have hmembers : Pending.ofEntries list (some (parent, field)) entries =
          Pending.ofFields parent list (entries.map fun entry => (field, entry.2)) := by
        simp [Pending.ofEntries, Pending.ofFields]
      have hentries : ∀ entry ∈ entries.map fun entry => (field, entry.2), Enters entry.2 := by
        rintro _ hentry
        obtain ⟨entry, hmem, rfl⟩ := List.mem_map.mp hentry
        exact ih entry.2 (List.mem_map_of_mem hmem)
      rw [collect, hmembers, collect_fields hentries h, Branch.push, Branch.pushEntries_eq]
    | list items =>
      have hmembers : Pending.ofItems list (some (parent, field)) items =
          Pending.ofFields parent list (items.map fun b => (field, b)) := by
        simp [Pending.ofItems, Pending.ofFields]
      have hitems : ∀ entry ∈ items.map fun b => (field, b), Enters entry.2 := by
        simpa [Branch.parts] using ih
      rw [collect, hmembers, collect_fields hitems h, Branch.push, Branch.pushItems_eq]

/-! ## Trees -/

/-- The loop collects the nodes of the recursion. -/
theorem ofTree_eq (t : Tree) :
    ofTree t = {
      nodes := (Staged.collectedFrom 0 (t.plain.stage 0)).toArray
      lists := (#[0] :: (t.plain.stage 0).map Staged.held).toArray } := by
  obtain ⟨kind, span, fields⟩ := t
  let first : Collection := add { nodes := #[], lists := #[#[]] } 0 none kind span
  have hfits : first.Fits 1 0 := ⟨rfl, Nat.one_lt_two, Nat.one_pos⟩
  have hloop := collect_fields (fun entry (_ : entry ∈ fields) => enters entry.2) hfits []
  rw [ofTree, Tree.branch, collect]
  refine hloop.trans ?_
  rw [collect]
  simp [first, add, enter, Tree.plain, Plain.stage, Staged.collectedFrom, Staged.collected,
    Staged.held]

theorem getElem?_nodes_ofTree (t : Tree) (id : Nat) :
    (ofTree t).nodes[id]? = (Staging.ofTree t).nodes[id]?.map (·.collected id) := by
  rw [ofTree_eq, Staging.ofTree, List.getElem?_toArray, List.getElem?_toArray,
    Staged.getElem?_collectedFrom, Nat.zero_add]

theorem inOrder_ofTree (t : Tree) : (ofTree t).inOrder = (Staging.ofTree t).inOrder := by
  have hspan : ∀ id, (ofTree t).span id = (Staging.ofTree t).span id := by
    intro id
    rw [span, Staging.span, getElem?_nodes_ofTree]
    cases (Staging.ofTree t).nodes[id]? <;> rfl
  funext a b
  rw [inOrder, Staging.inOrder, hspan, hspan]

/-- The first list is that of the topmost node, and the others are those of what the nodes hold. -/
theorem sortedLists_ofTree (t : Tree) :
    (ofTree t).sortedLists.toList =
      [0] :: (Staging.ofTree t).nodes.toList.map (Staging.ofTree t).childList := by
  rw [sortedLists, inOrder_ofTree, ofTree_eq, List.map_toArray, List.map_cons, List.map_map]
  simp [Staging.ofTree, Staging.childList, Staged.held, Function.comp_def]

/-- A collected node becomes the node that the recursion gives. -/
theorem node_collected {t : Tree} {id : Nat} {s : Staged}
    (h : (Staging.ofTree t).nodes[id]? = some s) (places : Array Nat) :
    (s.collected id).node (ofTree t).sortedLists places = (Staging.ofTree t).node places s := by
  have hlist : (ofTree t).sortedLists[id + 1]? = some ((Staging.ofTree t).childList s) := by
    rw [← Array.getElem?_toList, sortedLists_ofTree, List.getElem?_cons_succ, List.getElem?_map,
      Array.getElem?_toList, h, Option.map_some]
  simp [Collected.node, Staging.node, Staged.collected, hlist]

end Collection

/-- The arena of a tree is made of the nodes of the recursion. -/
theorem Arena.ofTree_eq (t : Tree) (source : List Char) :
    ofTree t source =
      { nodes := (attachGaps source ⟨0, 0⟩ (Staging.ofTree t).arranged).toArray } := by
  have horder : (Collection.ofTree t).order (Collection.ofTree t).sortedLists =
      (Staging.ofTree t).order := by
    rw [Collection.order, Collection.sortedLists_ofTree, Collection.inOrder_ofTree, Staging.order]
  rw [ofTree, horder, Staging.arranged]
  congr 3
  refine List.filterMap_congr fun id _ => ?_
  rw [Collection.getElem?_nodes_ofTree, Option.map_map]
  cases hnode : (Staging.ofTree t).nodes[id]? with
  | none => rfl
  | some s =>
    rw [Option.map_some, Option.map_some, Function.comp_apply, Collection.node_collected hnode]

end Stepflow
