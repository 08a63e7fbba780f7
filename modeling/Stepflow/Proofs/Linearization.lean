import Mathlib.Data.List.Nodup
import Mathlib.Logic.Equiv.Defs
import Stepflow.Proofs.Arrangement

/-!
# An arena is its tree in one sequence

Nothing is assumed about spans here: they may be empty, equal, crossing, or end before they start.

* `Tree.NodeAddress`: the addresses at which a tree has a node.
* `Tree.NodeAddress.Holds`, `Tree.NodeAddress.Owns`: one node holds another one under a field; one
  node is a nearest node below another one.

Results:
* `Tree.NodeAddress.owns_iff_exists_holds`: the nearest nodes below a node are those that it holds.
* `Arena.below_count`: every place but that of the topmost node occurs once, below one node.
* `Arena.ofTree_linearizes`: nodes and places correspond one to one, and a node of the arena has the
  kind, the span and the children of its node in the tree.
-/

namespace Stepflow

/-! ## Nodes by their addresses -/

/-- An address at which a tree has a node. -/
abbrev Tree.NodeAddress (t : Tree) : Type :=
  {p : Address // (t.node? p).isSome}

namespace Tree.NodeAddress

variable {t : Tree}

/-- The node at the address. -/
def node (p : t.NodeAddress) : Tree :=
  (t.node? p.1).get p.2

/-- The address of the topmost node. -/
def top (t : Tree) : t.NodeAddress :=
  ⟨[], rfl⟩

/-- The node at the first address holds that at the second one under a field, and there is no node
    in between. -/
def Holds (p : t.NodeAddress) (f : Field) (q : t.NodeAddress) : Prop :=
  ∃ r, q.1 = p.1 ++ r ∧ p.node.fieldOf? r = some f

/-- The node at the second address is one of the nearest nodes below that at the first one: it lies
    below it, and there is no other node on the way. -/
def Owns (p q : t.NodeAddress) : Prop :=
  p.1 <+: q.1 ∧ p ≠ q ∧ ∀ r : t.NodeAddress, p.1 <+: r.1 → r.1 <+: q.1 → r = p ∨ r = q

theorem node?_eq (p : t.NodeAddress) : t.node? p.1 = some p.node :=
  Option.eq_some_of_isSome p.2

/-- The nearest nodes below a node are those that it holds under some field. -/
theorem owns_iff_exists_holds {p q : t.NodeAddress} : p.Owns q ↔ ∃ f, p.Holds f q := by
  constructor
  · rintro ⟨⟨r, hr⟩, hne, hnearest⟩
    have hsome : (p.node.fieldOf? r).isSome := by
      refine isSome_fieldOf?_iff.mpr ⟨?_, ?_, ?_⟩
      · rintro rfl
        exact hne (Subtype.ext (by rw [← hr, List.append_nil]))
      · rw [← node?_append p.node?_eq, hr]
        exact q.2
      · rintro s ⟨u, hu⟩ hnil hfull
        by_contra hs
        let x : t.NodeAddress := ⟨p.1 ++ s, by
          rw [node?_append p.node?_eq]
          exact Option.isSome_iff_ne_none.mpr hs⟩
        rcases hnearest x ⟨s, rfl⟩ ⟨u, by rw [← hr, ← hu, List.append_assoc]⟩ with hx | hx
        · exact hnil (List.append_right_eq_self.mp (congrArg Subtype.val hx))
        · exact hfull (List.append_cancel_left ((congrArg Subtype.val hx).trans hr.symm))
    obtain ⟨f, hf⟩ := Option.isSome_iff_exists.mp hsome
    exact ⟨f, r, hr.symm, hf⟩
  · rintro ⟨f, r, hr, hf⟩
    obtain ⟨hnil, -, hnone⟩ := isSome_fieldOf?_iff.mp (Option.isSome_iff_exists.mpr ⟨f, hf⟩)
    refine ⟨⟨r, hr.symm⟩, ?_, ?_⟩
    · intro hpq
      exact hnil (List.append_right_eq_self.mp (hr.symm.trans (congrArg Subtype.val hpq.symm)))
    · rintro x ⟨s, hs⟩ hxq
      have hsr : s <+: r := by
        rw [← hs, hr] at hxq
        exact (List.prefix_append_right_inj _).mp hxq
      by_cases hsnil : s = []
      · exact .inl (Subtype.ext (by rw [← hs, hsnil, List.append_nil]))
      · refine .inr (Subtype.ext ?_)
        rw [← hs, hr]
        by_contra hne
        have hx := x.2
        rw [← hs, node?_append p.node?_eq, hnone s hsr hsnil fun h => hne (by rw [h])] at hx
        cases hx

/-- What is held at an address below is a node of the tree. -/
theorem exists_holds_iff {p : t.NodeAddress} {f : Field} {id : Nat} :
    (∃ r, p.node.fieldOf? r = some f ∧ t.place (p.1 ++ r) = id) ↔
      ∃ q : t.NodeAddress, p.Holds f q ∧ t.place q.1 = id := by
  constructor
  · rintro ⟨r, hr, hid⟩
    have hsome : (t.node? (p.1 ++ r)).isSome := by
      rw [node?_append p.node?_eq]
      exact isSome_node?_of_fieldOf? hr
    exact ⟨⟨p.1 ++ r, hsome⟩, ⟨r, rfl, hr⟩, hid⟩
  · rintro ⟨q, ⟨r, hq, hr⟩, hid⟩
    exact ⟨r, hr, hq ▸ hid⟩

/-- Every place is that of a node. -/
theorem exists_place {source : List Char} {k : Nat} (hk : k < (Arena.ofTree t source).size) :
    ∃ p : t.NodeAddress, t.place p.1 = k := by
  obtain ⟨p, n, hp, hk⟩ := exists_address hk
  exact ⟨⟨p, by rw [hp]; rfl⟩, hk⟩

end Tree.NodeAddress

/-! ## References -/

namespace Arena

variable (t : Tree) (source : List Char)

theorem mem_below {a : Arena} {id k : Nat} :
    id ∈ a.below k ↔ ∃ n, a.nodes.toList[k]? = some n ∧ id ∈ n.nodes := by
  rw [below, node?, Array.getElem?_toList]
  cases a.nodes[k]? <;> simp

theorem mem_flatMap_of_mem_below {a : Arena} {id k : Nat} (h : id ∈ a.below k) :
    id ∈ a.nodes.toList.flatMap (·.nodes) := by
  obtain ⟨n, hn, hid⟩ := mem_below.mp h
  exact List.mem_flatMap.mpr ⟨n, List.mem_of_getElem? hn, hid⟩

variable {t source} in
/-- Every node of the arena agrees with a node of the tree. -/
theorem exists_depicts {k : Nat} {m : Node} (h : (ofTree t source).node? k = some m) :
    ∃ p : t.NodeAddress, t.place p.1 = k ∧ m.Depicts t.place p.node p.1 := by
  obtain ⟨p, rfl⟩ := Tree.NodeAddress.exists_place (Array.getElem?_eq_some_iff.mp h).1
  obtain ⟨m', hm', hd⟩ := Tree.exists_node source p.node?_eq
  obtain rfl : m = m' := Option.some.inj (h.symm.trans hm')
  exact ⟨p, rfl, hd⟩

variable {t source} in
/-- Whatever is reached through a field is directly below. -/
theorem mem_below_of_mem_allIn {k id : Nat} {m : Node} {f : Field}
    (hm : (ofTree t source).node? k = some m) (h : id ∈ m.allIn f) :
    id ∈ (ofTree t source).below k := by
  obtain ⟨p, rfl, hd⟩ := exists_depicts hm
  obtain ⟨e, he, rfl⟩ := List.mem_map.mp h
  have hmem : e.2 ∈ m.nodes := hd.nodes ▸ List.mem_map_of_mem (List.mem_filter.mp he).1
  rwa [below, hm]

variable {t source} in
theorem mem_below_of_firstIn? {k id : Nat} {m : Node} {f : Field}
    (hm : (ofTree t source).node? k = some m) (h : m.firstIn? f = some id) :
    id ∈ (ofTree t source).below k :=
  mem_below_of_mem_allIn hm (List.mem_of_head? h)

/-- The topmost node is below no node. -/
theorem place_top_notMem_below (k : Nat) : t.place [] ∉ (ofTree t source).below k := by
  intro h
  exact (List.nodup_cons.mp (t.nodup_references source)).1 (mem_flatMap_of_mem_below h)

/-- Two nodes have no place below them in common. -/
theorem below_disjoint {id k l : Nat} (hk : id ∈ (ofTree t source).below k)
    (hl : id ∈ (ofTree t source).below l) : k = l := by
  have hdisjoint := (List.nodup_flatMap.mp (List.nodup_cons.mp (t.nodup_references source)).2).2
  have hlt : ∀ k l, k < l → id ∈ (ofTree t source).below k → id ∉ (ofTree t source).below l := by
    intro k l hkl hk hl
    obtain ⟨n, hn, hk⟩ := mem_below.mp hk
    obtain ⟨m, hm, hl⟩ := mem_below.mp hl
    obtain ⟨hk', rfl⟩ := List.getElem?_eq_some_iff.mp hn
    obtain ⟨hl', rfl⟩ := List.getElem?_eq_some_iff.mp hm
    exact List.pairwise_iff_getElem.mp hdisjoint k l hk' hl' hkl hk hl
  rcases Nat.lt_trichotomy k l with h | h | h
  · exact absurd hl (hlt k l h hk)
  · exact h
  · exact absurd hk (hlt l k h hl)

theorem nodup_below (k : Nat) : ((ofTree t source).below k).Nodup := by
  have hnodes := (List.nodup_flatMap.mp (List.nodup_cons.mp (t.nodup_references source)).2).1
  cases hn : (ofTree t source).nodes[k]? with
  | none =>
    rw [below, node?, hn]
    exact List.nodup_nil
  | some n =>
    rw [below, node?, hn]
    exact hnodes n (List.mem_of_getElem? (Array.getElem?_toList ▸ hn))

/-- Every other place is below a node. -/
theorem exists_mem_below {id : Nat} (hid : id < (ofTree t source).size) (htop : id ≠ t.place []) :
    ∃ k, id ∈ (ofTree t source).below k := by
  have hmem := (t.perm_below source).mem_iff.mpr (List.mem_range.mpr hid)
  obtain ⟨n, hn, hid⟩ := List.mem_flatMap.mp (List.mem_of_ne_of_mem htop hmem)
  obtain ⟨k, hk⟩ := List.getElem?_of_mem hn
  exact ⟨k, mem_below.mpr ⟨n, hk, hid⟩⟩

/-- Every place but that of the topmost node occurs once, below one node. -/
theorem below_count {id : Nat} (hid : id < (ofTree t source).size) (htop : id ≠ t.place []) :
    ∃ k, ((ofTree t source).below k).count id = 1 ∧
      ∀ l, l ≠ k → id ∉ (ofTree t source).below l := by
  obtain ⟨k, hk⟩ := exists_mem_below t source hid htop
  refine ⟨k, List.count_eq_one_of_mem (nodup_below t source k) hk, ?_⟩
  intro l hl hmem
  exact hl (below_disjoint t source hmem hk)

/-- Nodes and places correspond one to one. At the place of a node stands its kind and its span,
    counted from 0. Below it stand, in ascending order, the places of the nodes that it holds, and
    the same places with the fields under which it holds them. So every place but that of the
    topmost node is below one node, and is there once. -/
theorem ofTree_linearizes :
    ∃ place : t.NodeAddress ≃ Fin (ofTree t source).size,
      (∀ p : t.NodeAddress, ∃ m, (ofTree t source).node? (place p) = some m ∧
        m.kind = p.node.kind ∧
        m.span = { start := p.node.span.start - 1, stop := p.node.span.stop - 1 } ∧
        m.nodes.Pairwise (· < ·) ∧
        (∀ id, id ∈ m.nodes ↔ ∃ q, p.Owns q ∧ (place q : Nat) = id) ∧
        m.fields.map (·.2) = m.nodes ∧
        ∀ f id, (f, id) ∈ m.fields ↔ ∃ q, p.Holds f q ∧ (place q : Nat) = id) ∧
      (∀ k, (place (.top t) : Nat) ∉ (ofTree t source).below k) ∧
      ∀ q : t.NodeAddress, q ≠ .top t →
        ∃ k, ((ofTree t source).below k).count (place q : Nat) = 1 ∧
          ∀ l, l ≠ k → (place q : Nat) ∉ (ofTree t source).below l := by
  let place : t.NodeAddress → Fin (ofTree t source).size := fun p =>
    ⟨t.place p.1, Tree.place_lt source p.node?_eq⟩
  have hbij : Function.Bijective place := by
    constructor
    · intro p q hpq
      exact Subtype.ext (Tree.place_inj p.node?_eq (Fin.val_eq_of_eq hpq))
    · intro k
      obtain ⟨p, hp⟩ := Tree.NodeAddress.exists_place k.isLt
      exact ⟨p, Fin.ext hp⟩
  refine ⟨Equiv.ofBijective place hbij, ?_, place_top_notMem_below t source, ?_⟩
  · intro p
    obtain ⟨m, hm, hd⟩ := Tree.exists_node source p.node?_eq
    have hfields : ∀ f id, (f, id) ∈ m.fields ↔ ∃ q, p.Holds f q ∧ t.place q.1 = id := by
      intro f id
      rw [hd.fields]
      exact Tree.NodeAddress.exists_holds_iff
    refine ⟨m, hm, hd.kind, hd.span, hd.ascending, ?_, hd.nodes, hfields⟩
    intro id
    rw [← hd.nodes, List.mem_map]
    constructor
    · rintro ⟨⟨f, id⟩, hmem, rfl⟩
      obtain ⟨q, hq, hid⟩ := (hfields f id).mp hmem
      exact ⟨q, Tree.NodeAddress.owns_iff_exists_holds.mpr ⟨f, hq⟩, hid⟩
    · rintro ⟨q, hown, hid⟩
      obtain ⟨f, hq⟩ := Tree.NodeAddress.owns_iff_exists_holds.mp hown
      exact ⟨(f, id), (hfields f id).mpr ⟨q, hq, hid⟩, rfl⟩
  · intro q hq
    refine below_count t source (Tree.place_lt source q.node?_eq) fun h => hq ?_
    exact Subtype.ext (Tree.place_inj q.node?_eq h)

end Arena

end Stepflow
