import Mathlib.Data.List.Perm.Basic
import Stepflow.Arena.Walk
import Stepflow.Proofs.Linearization

/-!
# Outlines

The part of an arena that lies below a place, as a tree. On an outline a walk is a recursion: the
node, then the outlines below it, the first one first.

* `Outline`, `Arena.Outlines`: the tree, and that it agrees with an arena.
* `Outline.places`: the places of an outline in the order of a walk.
* `Outline.walk`: the walk as a recursion.

Results:
* `Arena.exists_outline_top`: the outline of the topmost node holds every place once.
* `Arena.exists_outline`: every place has an outline, and it holds no place twice.
* `Arena.walk_eq_outline_walk`: the walk over waiting places is the recursion, and the bound on the
  number of visits is never reached.
-/

namespace Stepflow

/-- A node of an arena at its place, with what lies below it. -/
structure Outline where
  place : Nat
  node : Node
  parts : List Outline

/-- The outline is what an arena holds at and below a place. -/
inductive Arena.Outlines (a : Arena) : Outline → Prop
  | intro {id : Nat} {n : Node} {parts : List Outline} (node : a.node? id = some n)
      (nodes : n.nodes = parts.map (·.place)) (all : ∀ o ∈ parts, a.Outlines o) :
      a.Outlines ⟨id, n, parts⟩

namespace Outline

mutual

/-- The places of an outline, each before those below it. -/
def places : Outline → List Nat
  | ⟨id, _, parts⟩ => id :: placesAll parts

/-- The places of outlines that follow each other. -/
def placesAll : List Outline → List Nat
  | [] => []
  | o :: os => o.places ++ placesAll os

end

section Walk

variable {σ : Type} (v : Visitor σ)

mutual

/-- Visits the node, and goes down if the visitor says so. -/
def walk : Outline → StateM σ Unit
  | ⟨id, n, parts⟩ => do
    if ← v.dispatch n.kind id then walkAll parts

/-- Walks through outlines that follow each other. -/
def walkAll : List Outline → StateM σ Unit
  | [] => pure ()
  | o :: os => do
    walk o
    walkAll os

end

end Walk

theorem placesAll_eq (os : List Outline) : placesAll os = os.flatMap places := by
  induction os with
  | nil => rfl
  | cons o os ih => rw [placesAll, ih, List.flatMap_cons]

theorem mem_places {o : Outline} {id : Nat} :
    id ∈ o.places ↔ id = o.place ∨ ∃ o' ∈ o.parts, id ∈ o'.places := by
  obtain ⟨id', n, parts⟩ := o
  rw [places, List.mem_cons, placesAll_eq, List.mem_flatMap]

theorem place_mem_places (o : Outline) : o.place ∈ o.places :=
  mem_places.mpr (.inl rfl)

theorem walk_run {σ : Type} (v : Visitor σ) (o : Outline) (s : σ) :
    (o.walk v).run s =
      match (v.dispatch o.node.kind o.place).run s with
      | (true, s') => (walkAll v o.parts).run s'
      | (false, s') => ((), s') := by
  obtain ⟨id, n, parts⟩ := o
  rw [walk, StateT.run_bind]
  obtain ⟨_ | _, s'⟩ := (v.dispatch n.kind id).run s <;> rfl

@[simp] theorem walkAll_nil {σ : Type} (v : Visitor σ) (s : σ) :
    (walkAll v []).run s = ((), s) := by
  rw [walkAll]
  rfl

theorem walkAll_cons {σ : Type} (v : Visitor σ) (o : Outline) (os : List Outline) (s : σ) :
    (walkAll v (o :: os)).run s = (walkAll v os).run ((o.walk v).run s).2 := by
  rw [walkAll]
  rfl

theorem walkAll_append {σ : Type} (v : Visitor σ) (os os' : List Outline) (s : σ) :
    (walkAll v (os ++ os')).run s = (walkAll v os').run ((walkAll v os).run s).2 := by
  induction os generalizing s with
  | nil => rfl
  | cons o os ih => rw [List.cons_append, walkAll_cons, ih, walkAll_cons]

end Outline

namespace Arena

variable {a : Arena} {o : Outline}

theorem Outlines.node?_eq (h : a.Outlines o) : a.node? o.place = some o.node := by
  cases h
  assumption

theorem Outlines.below_eq (h : a.Outlines o) : a.below o.place = o.parts.map (·.place) := by
  cases h with
  | intro node nodes => rw [Arena.below, node, ← nodes]

theorem Outlines.of_mem_parts (h : a.Outlines o) {o' : Outline} (ho : o' ∈ o.parts) :
    a.Outlines o' := by
  cases h with
  | intro _ _ all => exact all o' ho

end Arena

/-! ## Walks -/

namespace Arena

open Outline

variable {σ : Type} {a : Arena} {v : Visitor σ}

theorem walkFrom_nil (visits : Nat) (s : σ) : (walkFrom a v visits []).run s = ((), s) := by
  cases visits <;> rfl

/-- What a walk does at an outline, when the visits suffice for it: it goes through the outline, and
    then through what waits, with no fewer visits than it would have used up. -/
def WalksThrough (a : Arena) (v : Visitor σ) (o : Outline) : Prop :=
  ∀ (visits : Nat) (waiting : List Nat) (s : σ), o.places.length ≤ visits →
    ∃ rest, visits ≤ rest + o.places.length ∧
      (walkFrom a v visits (o.place :: waiting)).run s =
        (walkFrom a v rest waiting).run ((o.walk v).run s).2

theorem walkFrom_append {os : List Outline} (h : ∀ o ∈ os, a.WalksThrough v o) (visits : Nat)
    (waiting : List Nat) (s : σ) (hv : (placesAll os).length ≤ visits) :
    ∃ rest, visits ≤ rest + (placesAll os).length ∧
      (walkFrom a v visits (os.map (·.place) ++ waiting)).run s =
        (walkFrom a v rest waiting).run ((walkAll v os).run s).2 := by
  induction os generalizing visits s with
  | nil => exact ⟨visits, Nat.le_add_right _ _, rfl⟩
  | cons o os ih =>
    rw [placesAll, List.length_append] at hv ⊢
    obtain ⟨rest, hrest, hwalk⟩ := h o List.mem_cons_self visits (os.map (·.place) ++ waiting) s
      (by omega)
    obtain ⟨rest', hrest', hwalk'⟩ := ih (fun o ho => h o (List.mem_cons_of_mem _ ho)) rest
      ((o.walk v).run s).2 (by omega)
    refine ⟨rest', by omega, ?_⟩
    rw [List.map_cons, List.cons_append, hwalk, hwalk', walkAll_cons]

/-- The outlines below a node come up before what waits. -/
theorem Outlines.walksThrough {o : Outline} (h : a.Outlines o) : a.WalksThrough v o := by
  induction h with
  | @intro id n parts hnode hnodes _ ih =>
    intro visits waiting s hv
    rw [places, List.length_cons] at hv ⊢
    obtain ⟨visits, rfl⟩ : ∃ k, visits = k + 1 := ⟨visits - 1, by omega⟩
    rw [walkFrom, hnode, walk_run]
    dsimp only
    rw [StateT.run_bind]
    obtain ⟨down, s'⟩ := (v.dispatch n.kind id).run s
    cases down with
    | false => exact ⟨visits, by omega, rfl⟩
    | true =>
      obtain ⟨rest, hrest, hwalk⟩ := walkFrom_append ih visits waiting s' (by omega)
      refine ⟨rest, by omega, ?_⟩
      rw [← hnodes] at hwalk
      exact hwalk

/-- The walk over waiting places is the recursion over the outline. -/
theorem walk_eq_outline_walk {o : Outline} (h : a.Outlines o) (hsize : o.places.length ≤ a.size)
    (s : σ) : ((a.walk v o.place).run s).2 = ((o.walk v).run s).2 := by
  obtain ⟨rest, -, hwalk⟩ := h.walksThrough (v := v) a.size [] s hsize
  rw [walk, hwalk, walkFrom_nil]

end Arena

/-! ## Outlines of a tree -/

/-- The collected nodes stand in a staging from the number `base` on. -/
def Staging.StandsAt (s : Staging) (base : Nat) (nodes : List Staged) : Prop :=
  ∀ i n, nodes[i]? = some n → s.nodes[base + i]? = some n

theorem Staging.StandsAt.of_append {s : Staging} {base : Nat} {ks ls : List Staged}
    (h : s.StandsAt base (ks ++ ls)) : s.StandsAt base ks ∧ s.StandsAt (base + ks.length) ls := by
  constructor
  · intro i n hi
    refine h i n ?_
    rw [List.getElem?_append_left (List.getElem?_eq_some_iff.mp hi).1, hi]
  · intro i n hi
    rw [Nat.add_assoc]
    refine h (ks.length + i) n ?_
    rw [List.getElem?_append_right (Nat.le_add_right _ _), Nat.add_sub_cancel_left, hi]

/-- Elements can be put into any order that their images are put into. -/
theorem exists_perm_map_eq {α β : Type} {f : α → β} {l : List α} {m : List β}
    (h : m.Perm (l.map f)) : ∃ l' : List α, l'.Perm l ∧ m = l'.map f := by
  have hrel : List.Forall₂ (fun y x => y = f x) (l.map f) l := by
    rw [List.forall₂_map_left_iff]
    exact List.forall₂_same.mpr fun _ _ => rfl
  obtain ⟨l', hm, hl⟩ := List.perm_comp_forall₂ h hrel
  refine ⟨l', hl, ?_⟩
  rw [← List.forall₂_eq_eq_eq, List.forall₂_map_right_iff]
  exact hm

namespace Arena

open Outline

variable (t : Tree) (source : List Char)

mutual

/-- A tree that was collected from the number `base` on has an outline, with as many places. -/
theorem exists_outline_stage : ∀ (p : Plain) (base : Nat),
    (Staging.ofTree t).StandsAt base (p.stage base) →
    ∃ o, (ofTree t source).Outlines o ∧ o.place = (Staging.ofTree t).order.idxOf base ∧
      o.places.Perm ((List.range' base p.size).map (Staging.ofTree t).order.idxOf)
  | ⟨kind, span, children⟩, base, h => by
    rw [Plain.stage] at h
    have hs := h 0 _ rfl
    have hrest : (Staging.ofTree t).StandsAt (base + 1) (Plain.stages (base + 1) children) := by
      intro i n hi
      rw [Nat.add_right_comm, Nat.add_assoc]
      exact h (i + 1) n hi
    obtain ⟨os, hos, hplace, hplaces⟩ := exists_outlines_stages children (base + 1) hrest
    obtain ⟨text, hnode⟩ := node?_idxOf source hs
    -- The outlines below come in the order of their numbers and are put into that of the places.
    have hmem := List.mem_of_getElem? (Array.getElem?_toList ▸ hs)
    obtain ⟨os', hperm, heq⟩ := exists_perm_map_eq
      ((Staging.nodes_node_perm hmem).trans (List.Perm.of_eq hplace.symm))
    refine ⟨⟨_, _, os'⟩, .intro hnode heq fun o ho => hos o (hperm.mem_iff.mp ho), rfl, ?_⟩
    rw [places, Plain.size, List.range'_succ, List.map_cons, placesAll_eq]
    refine List.Perm.cons _ ((hperm.flatMap_right _).trans ?_)
    rwa [← placesAll_eq]

theorem exists_outlines_stages : ∀ (ks : List (Field × Plain)) (base : Nat),
    (Staging.ofTree t).StandsAt base (Plain.stages base ks) →
    ∃ os : List Outline, (∀ o ∈ os, (ofTree t source).Outlines o) ∧
      os.map (·.place) =
        (Plain.numbers base ks).map ((Staging.ofTree t).order.idxOf ∘ (·.2)) ∧
      (placesAll os).Perm
        ((List.range' base (Plain.sizes ks)).map (Staging.ofTree t).order.idxOf)
  | [], _, _ => ⟨[], by simp, rfl, by simp [placesAll, Plain.sizes]⟩
  | (f, p) :: ks, base, h => by
    rw [Plain.stages] at h
    obtain ⟨hp, hks⟩ := h.of_append
    rw [Plain.length_stage] at hks
    obtain ⟨o, ho, hplace, hplaces⟩ := exists_outline_stage p base hp
    obtain ⟨os, hos, hplace', hplaces'⟩ := exists_outlines_stages ks (base + p.size) hks
    refine ⟨o :: os, by simpa using ⟨ho, hos⟩, ?_, ?_⟩
    · rw [List.map_cons, Plain.numbers, List.map_cons, hplace, hplace']
      rfl
    · rw [placesAll, Plain.sizes, ← List.range'_append_1, List.map_append]
      exact hplaces.append hplaces'

end

/-- The outline of the topmost node holds every place once. -/
theorem exists_outline_top :
    ∃ o, (ofTree t source).Outlines o ∧ o.place = t.place [] ∧
      o.places.Perm (List.range (ofTree t source).size) := by
  have hstand : (Staging.ofTree t).StandsAt 0 (t.plain.stage 0) := by
    intro i n hi
    rw [Nat.zero_add, Staging.ofTree, List.getElem?_toArray, hi]
  obtain ⟨o, ho, hplace, hplaces⟩ := exists_outline_stage t source t.plain 0 hstand
  refine ⟨o, ho, hplace.trans t.place_nil.symm, hplaces.trans ?_⟩
  have hrange := ((Staging.perm_order t).map (Staging.ofTree t).order.idxOf).symm
  rw [map_idxOf_self (Staging.nodup_order t), Staging.length_order] at hrange
  rw [t.size_plain, ← List.range_eq_range', size_ofTree]
  exact hrange

/-- What lies at and below a place of an outline is an outline itself, of every arena that has the
    whole, and its places stand together in those of the whole. -/
theorem Outlines.exists_part {a : Arena} {o : Outline} (h : a.Outlines o) {id : Nat}
    (hid : id ∈ o.places) :
    ∃ o' : Outline, o'.place = id ∧ o'.places <:+: o.places ∧
      ∀ a' : Arena, a'.Outlines o → a'.Outlines o' := by
  induction h with
  | @intro id' n parts _ _ _ ih =>
    rcases mem_places.mp hid with rfl | ⟨o, ho, hid⟩
    · exact ⟨_, rfl, List.infix_rfl, fun _ h => h⟩
    · obtain ⟨o', hplace, hrun, hall⟩ := ih o ho hid
      refine ⟨o', hplace, hrun.trans ?_, fun a' h => hall a' (h.of_mem_parts ho)⟩
      obtain ⟨before, after, rfl⟩ := List.append_of_mem ho
      refine ⟨id' :: placesAll before, placesAll after, ?_⟩
      simp [places, placesAll_eq]

theorem Outlines.exists_of_mem {a : Arena} {o : Outline} (h : a.Outlines o) {id : Nat}
    (hid : id ∈ o.places) : ∃ o', a.Outlines o' ∧ o'.place = id ∧ o'.places <:+: o.places := by
  obtain ⟨o', hplace, hrun, hall⟩ := h.exists_part hid
  exact ⟨o', hall a h, hplace, hrun⟩

/-- Every place of the arena has an outline, and it holds no place twice. -/
theorem exists_outline {id : Nat} (hid : id < (ofTree t source).size) :
    ∃ o, (ofTree t source).Outlines o ∧ o.place = id ∧ o.places.Nodup ∧
      o.places.length ≤ (ofTree t source).size := by
  obtain ⟨top, htop, -, hperm⟩ := exists_outline_top t source
  obtain ⟨o, ho, hplace, hrun⟩ :=
    htop.exists_of_mem (hperm.mem_iff.mpr (List.mem_range.mpr hid))
  have hsub := hrun.sublist
  refine ⟨o, ho, hplace, (hperm.nodup_iff.mpr List.nodup_range).sublist hsub, ?_⟩
  have := hsub.length_le
  rwa [hperm.length_eq, List.length_range] at this

end Arena

end Stepflow
