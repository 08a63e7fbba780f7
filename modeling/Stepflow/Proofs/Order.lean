import Mathlib
import Stepflow.Proofs.Nesting

/-!
# The order of the places

Places follow the starts of the nodes, and among nodes that start together the ends, from the last
one down. In a laminar tree that is the order of a walk, so the nodes below a place follow it
without a gap.

* `Arena.visit`: one visit, whatever the visitor answers.
* `Arena.Descends`: a visitor goes down at every node.

Results:
* `Arena.ofTree_ordered`: how starts and ends go along the places, for any spans, and what nested
  spans add to that.
* `Arena.Outlines.walk_eq_forM`: a walk that always goes down visits the places of the outline.
* `Arena.Outlines.pairwise_places`, `Arena.exists_outline_range`: in a laminar tree the order of a
  walk is that of the places.
* `Arena.Outlines.perm_places`: the places below a place are those of the nodes below its node.
* `Arena.ofTree_preorder`: a walk from the first place visits all places from 0 on, one after the
  other, and a node and those below it have consecutive places.
-/

namespace Stepflow

namespace Arena

variable {t : Tree} {source : List Char}

/-! ## Starts and ends -/

/-- What holds of the spans of any two nodes, the earlier one first, holds along the sequence. -/
theorem pairwise_nodes {r : Span → Span → Prop}
    (h : ∀ k l, k < l → l < (ofTree t source).size →
      r (t.spanAt k).fromZero (t.spanAt l).fromZero) :
    (ofTree t source).nodes.toList.Pairwise fun m n => r m.span n.span := by
  rw [List.pairwise_iff_getElem]
  intro k l hk hl hkl
  rw [Array.length_toList] at hk hl
  have hm : (ofTree t source).node? k = some (ofTree t source).nodes[k] :=
    Array.getElem?_eq_getElem hk
  have hn : (ofTree t source).node? l = some (ofTree t source).nodes[l] :=
    Array.getElem?_eq_getElem hl
  rw [Array.getElem_toList, Array.getElem_toList, span_eq_fromZero hm, span_eq_fromZero hn]
  exact h k l hkl hl

theorem start_pos (hpos : ∀ p : t.NodeAddress, 1 ≤ p.node.span.start) {k : Nat}
    (hk : k < (ofTree t source).size) : 1 ≤ (t.spanAt k).start := by
  obtain ⟨p, rfl⟩ := Tree.NodeAddress.exists_place hk
  rw [Tree.spanAt_place p.node?_eq]
  exact hpos p

/-- Along the places the nodes start later and later. If all nodes of the tree start at the first
    byte or behind it, then nodes that start together end earlier and earlier. If every node lies
    inside the node that holds it, then the topmost node comes first, a node refers to higher places
    only, and a node of the arena lies inside all nodes around it. -/
theorem ofTree_ordered (t : Tree) (source : List Char) :
    (ofTree t source).nodes.toList.Pairwise (fun m n => m.span.start ≤ n.span.start) ∧
    ((∀ p : t.NodeAddress, 1 ≤ p.node.span.start) →
      (ofTree t source).nodes.toList.Pairwise fun m n =>
        m.span.start = n.span.start → n.span.stop ≤ m.span.stop) ∧
    (t.Nested →
      t.place [] = 0 ∧
      (∀ k, ∀ c ∈ (ofTree t source).below k, k < c) ∧
      ∀ p q : t.NodeAddress, p.1 <+: q.1 →
        ∃ m n, (ofTree t source).node? (t.place p.1) = some m ∧
          (ofTree t source).node? (t.place q.1) = some n ∧ n.span.Within m.span) := by
  refine ⟨?_, ?_, ?_⟩
  · refine pairwise_nodes (r := fun x y => x.start ≤ y.start) fun k l hkl hl => ?_
    have := spanAt_ordered hkl hl
    simp only [Span.fromZero]
    omega
  · intro hpos
    refine pairwise_nodes (r := fun x y => x.start = y.start → y.stop ≤ x.stop)
      fun k l hkl hl => ?_
    have hk := start_pos hpos (Nat.lt_trans hkl hl)
    have := spanAt_ordered hkl hl
    simp only [Span.fromZero]
    omega
  · intro hn
    refine ⟨place_top hn, fun k c hc => lt_of_mem_below hn hc, fun p q hpq => ?_⟩
    obtain ⟨m, hm, hdm⟩ := Tree.exists_node source p.node?_eq
    obtain ⟨n, hn', hdn⟩ := Tree.exists_node source q.node?_eq
    refine ⟨m, n, hm, hn', ?_⟩
    have habove : (ofTree t source).Above (t.place p.1) (t.place q.1) := above_place_iff.mpr hpq
    have hwithin := habove.within hn
    rw [Tree.spanAt_place p.node?_eq, Tree.spanAt_place q.node?_eq] at hwithin
    rw [hdm.span, hdn.span]
    exact hwithin.fromZero

/-- A statement with the same span as the module around it, one that overlaps it, and inside that an
    empty node. The later child is listed first. -/
def crowded : Tree where
  kind := .module
  span := { start := 1, stop := 4 }
  fields := [(.body, .group [
    (.children, .node .blockStatement { start := 2, stop := 4 }
      [(.body, .leaf (.other "EmptyStatement") { start := 2, stop := 2 })]),
    (.children, .leaf .expressionStatement { start := 1, stop := 4 })])]

theorem crowded_ordered :
    (∀ p : crowded.NodeAddress, 1 ≤ p.node.span.start) ∧ crowded.Nested ∧
    (ofTree crowded "abc".toList).nodes.toList.Pairwise (fun m n =>
      m.span.start = n.span.start → n.span.stop ≤ m.span.stop) ∧
    crowded.place [] = 0 ∧
    ∀ k, ∀ c ∈ (ofTree crowded "abc".toList).below k, k < c := by
  have hpos : ∀ p : crowded.NodeAddress, 1 ≤ p.node.span.start := by decide
  have hn : crowded.Nested := by decide
  obtain ⟨-, hstop, hnested⟩ := ofTree_ordered crowded "abc".toList
  obtain ⟨htop, hbelow, -⟩ := hnested hn
  exact ⟨hpos, hn, hstop hpos, htop, hbelow⟩

/-! ## Walks that always go down -/

section Visits

variable {σ : Type} {a : Arena} {v : Visitor σ} {o : Outline}

/-- Visits a place, and forgets whether to go down. -/
def visit (a : Arena) (v : Visitor σ) (id : Nat) : StateM σ Unit :=
  match a.node? id with
  | some n => do
    let _ ← v.dispatch n.kind id
  | none => pure ()

/-- The visitor goes down at every node, whatever it has seen before. -/
def Descends (a : Arena) (v : Visitor σ) : Prop :=
  ∀ id n, a.node? id = some n → ∀ s, ((v.dispatch n.kind id).run s).1 = true

theorem visit_run {id : Nat} {n : Node} (h : a.node? id = some n) (s : σ) :
    (a.visit v id).run s = ((), ((v.dispatch n.kind id).run s).2) := by
  rw [visit, h]
  rfl

theorem walkAll_eq_forM {os : List Outline}
    (h : ∀ o ∈ os, ∀ s, (o.walk v).run s = (forM o.places (a.visit v)).run s) (s : σ) :
    (Outline.walkAll v os).run s = (forM (Outline.placesAll os) (a.visit v)).run s := by
  induction os generalizing s with
  | nil =>
    rw [Outline.walkAll_nil, Outline.placesAll]
    rfl
  | cons o os ih =>
    rw [Outline.walkAll_cons, Outline.placesAll, List.forM_append, StateT.run_bind,
      h o List.mem_cons_self, ih fun o ho => h o (List.mem_cons_of_mem _ ho)]
    rfl

/-- A walk that always goes down visits the places of the outline, one after the other. -/
theorem Outlines.walk_eq_forM (h : a.Outlines o) (hv : a.Descends v) (s : σ) :
    (o.walk v).run s = (forM o.places (a.visit v)).run s := by
  induction h generalizing s with
  | @intro id n parts hnode _ _ ih =>
    rw [Outline.walk_run, Outline.places, List.forM_cons, StateT.run_bind, visit_run hnode]
    rcases hrun : (v.dispatch n.kind id).run s with ⟨down, s'⟩
    obtain rfl : down = true := by rw [← hv id n hnode s, hrun]
    exact walkAll_eq_forM ih s'

end Visits

/-! ## Laminar trees -/

variable {t : Tree} {source : List Char} {o : Outline}

/-- In a laminar tree the order of a walk is that of the places. -/
theorem Outlines.pairwise_places (hl : t.Laminar) (h : (ofTree t source).Outlines o) :
    o.places.Pairwise (· < ·) := by
  induction h with
  | @intro id n parts hnode hnodes hall ih =>
    have hbelow := (Outlines.intro hnode hnodes hall).below_eq
    have hmem : ∀ o ∈ parts, o.place ∈ (ofTree t source).below id := by
      intro o ho
      rw [hbelow]
      exact List.mem_map_of_mem ho
    rw [Outline.places, List.pairwise_cons, Outline.placesAll_eq, List.pairwise_flatMap]
    refine ⟨?_, ih, ?_⟩
    · intro c hc
      obtain ⟨o, ho, hc⟩ := List.mem_flatMap.mp hc
      have hlt := lt_of_mem_below hl.nested (hmem o ho)
      exact Nat.lt_of_lt_of_le hlt (((hall o ho).above hc).le hl.nested)
    · obtain ⟨p, -, hd⟩ := exists_depicts hnode
      have hascending : (parts.map (·.place)).Pairwise (· < ·) := hnodes ▸ hd.ascending
      refine (List.pairwise_map.mp hascending).imp_of_mem fun ho ho' hlt c hc d hd => ?_
      -- Everything below one sibling ends before anything below the next one starts.
      have hc := (hall _ ho).above hc
      have hd := (hall _ ho').above hd
      have hstop := stop_le_of_siblings hl (hmem _ ho) (hmem _ ho') hlt
      have hsize : c < (ofTree t source).size := hc.lt_size (lt_size_of_mem_below (hmem _ ho))
      have hpos := start_lt_stop hl hsize
      have := (hc.within hl.nested).2
      have := (hd.within hl.nested).1
      exact lt_of_start_lt hsize (by omega)

/-- The outline of the topmost node holds the places in their order. -/
theorem exists_outline_range (hl : t.Laminar) (source : List Char) :
    ∃ o, (ofTree t source).Outlines o ∧ (ofTree t source).root? = some o.place ∧
      o.places = List.range (ofTree t source).size := by
  obtain ⟨o, ho, hroot, hperm⟩ := exists_outline_root hl.nested source
  refine ⟨o, ho, hroot, hperm.eq_of_pairwise (fun k l _ _ hkl hlk => ?_) (ho.pairwise_places hl)
    List.pairwise_lt_range⟩
  omega

/-- The places of an outline are those of its node and of the nodes below it in the tree. -/
theorem Outlines.perm_places {p : t.NodeAddress} (h : (ofTree t source).Outlines o)
    (hnodup : o.places.Nodup) (hplace : o.place = t.place p.1) :
    o.places.Perm (p.node.addresses.map fun r => t.place (p.1 ++ r)) := by
  have hsome : ∀ r ∈ p.node.addresses, (t.node? (p.1 ++ r)).isSome := by
    intro r hr
    rw [Tree.node?_append p.node?_eq]
    exact Tree.mem_addresses.mp hr
  refine (List.perm_ext_iff_of_nodup hnodup ?_).mpr fun k => ?_
  · refine p.node.nodup_addresses.map_on fun r hr r' _ heq => ?_
    exact List.append_cancel_left (Tree.place_inj (Option.eq_some_of_isSome (hsome r hr)) heq)
  · rw [h.mem_places_iff, hplace, List.mem_map]
    constructor
    · intro habove
      obtain ⟨q, rfl⟩ := Tree.NodeAddress.exists_place
        (habove.lt_size (Tree.place_lt source p.node?_eq))
      obtain ⟨r, hr⟩ := above_place_iff.mp habove
      refine ⟨r, Tree.mem_addresses.mpr ?_, by rw [hr]⟩
      rw [← Tree.node?_append p.node?_eq, hr]
      exact q.2
    · rintro ⟨r, hr, rfl⟩
      let q : t.NodeAddress := ⟨p.1 ++ r, hsome r hr⟩
      exact (above_place_iff (q := q)).mpr (List.prefix_append p.1 r)

theorem eq_range'_of_infix {id : Nat} {ids : List Nat} {n : Nat}
    (h : id :: ids <:+: List.range n) : id :: ids = List.range' id (ids.length + 1) := by
  obtain ⟨before, after, h⟩ := h
  have hlen := congrArg List.length h
  rw [List.length_append, List.length_append, List.length_range] at hlen
  rw [List.range_eq_range', ← hlen, ← List.range'_append_1, ← List.range'_append_1] at h
  obtain ⟨h, -⟩ := List.append_inj h (by simp)
  obtain ⟨-, h⟩ := List.append_inj h (by simp)
  rw [List.length_cons] at h
  obtain ⟨rfl, -⟩ := List.cons.inj (h.trans List.range'_succ)
  exact h

/-- In a laminar tree a node and those below it have consecutive places. -/
theorem exists_outline_range' (hl : t.Laminar) (source : List Char) (p : t.NodeAddress) :
    ∃ o, (ofTree t source).Outlines o ∧ o.place = t.place p.1 ∧
      o.places = List.range' (t.place p.1) p.node.addresses.length := by
  obtain ⟨top, htop, -, hrange⟩ := exists_outline_range hl source
  have hmem : t.place p.1 ∈ top.places := by
    rw [hrange]
    exact List.mem_range.mpr (Tree.place_lt source p.node?_eq)
  obtain ⟨o, ho, hplace, hrun⟩ := htop.exists_of_mem hmem
  refine ⟨o, ho, hplace, ?_⟩
  rw [hrange] at hrun
  have hlen := (ho.perm_places (hrun.sublist.nodup List.nodup_range) hplace).length_eq
  rw [List.length_map] at hlen
  rw [← hplace, ← hlen]
  obtain ⟨id, n, parts⟩ := o
  rw [Outline.places] at hrun ⊢
  exact eq_range'_of_infix hrun

/-- In a tree whose nodes are not empty, lie inside the nodes that hold them and do not overlap
    their siblings, the places are given in the order of a walk. From the first place on, a visitor
    that always goes down visits every place once, from 0 up to the last one. The topmost node has
    the place 0, and the nodes at and below any node have consecutive places, the node's own one
    first. -/
theorem ofTree_preorder (t : Tree) (hl : t.Laminar) (source : List Char) :
    (∀ {σ : Type} (v : Visitor σ), (ofTree t source).Descends v →
      ∃ root, (ofTree t source).root? = some root ∧ ∀ s,
        ((ofTree t source).walk v root).run s =
          (forM (List.range (ofTree t source).size) ((ofTree t source).visit v)).run s) ∧
    t.place [] = 0 ∧
    ∀ p q : t.NodeAddress, p.1 <+: q.1 ↔
      t.place p.1 ≤ t.place q.1 ∧ t.place q.1 < t.place p.1 + p.node.addresses.length := by
  refine ⟨?_, place_top hl.nested, ?_⟩
  · intro σ v hv
    obtain ⟨o, ho, hroot, hrange⟩ := exists_outline_range hl source
    refine ⟨o.place, hroot, fun s => ?_⟩
    have hsize : o.places.length ≤ (ofTree t source).size := by rw [hrange, List.length_range]
    rw [← hrange, ← ho.walk_eq_forM hv s]
    exact Prod.ext rfl (walk_eq_outline_walk ho hsize s)
  · intro p q
    obtain ⟨o, ho, hplace, hrange⟩ := exists_outline_range' hl source p
    rw [← above_place_iff, ← hplace, ← ho.mem_places_iff, hrange, List.mem_range'_1, hplace]

/-- The statements of `x;y`, the second one first. It has the same span as the name in it, and the
    first one starts together with the name in it and with the module. -/
def twoNames : Tree where
  kind := .module
  span := { start := 1, stop := 4 }
  fields := [(.body, .list [
    .node .expressionStatement { start := 3, stop := 4 }
      [(.children, .leaf (.identifier "y") { start := 3, stop := 4 })],
    .node .expressionStatement { start := 1, stop := 3 }
      [(.children, .leaf (.identifier "x") { start := 1, stop := 2 })]])]

/-- The visitor that writes down where it has been. -/
def recorder : Visitor (List Nat) where
  fallback id := do
    modify (· ++ [id])
    return some true

theorem twoNames_preorder :
    twoNames.Laminar ∧ (ofTree twoNames "x;y".toList).Descends recorder ∧
    ((ofTree twoNames "x;y".toList).walk recorder 0).run [] = ((), [0, 1, 2, 3, 4]) := by
  have hl : twoNames.Laminar := by decide
  have hv : (ofTree twoNames "x;y".toList).Descends recorder := by
    rintro id ⟨kind, _⟩ - s
    cases kind <;> rfl
  refine ⟨hl, hv, ?_⟩
  obtain ⟨root, hroot, hwalk⟩ := (ofTree_preorder twoNames hl "x;y".toList).1 recorder hv
  obtain rfl : 0 = root := by
    have hzero : (ofTree twoNames "x;y".toList).root? = some 0 := by cbv
    exact Option.some.inj (hzero.symm.trans hroot)
  rw [hwalk]
  cbv

end Arena

end Stepflow
