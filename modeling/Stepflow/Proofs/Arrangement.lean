import Mathlib.Data.List.Nodup
import Mathlib.Data.List.Perm.Basic
import Stepflow.Proofs.Traversal

/-!
# The places of the nodes

The collected nodes of a tree are sorted by their spans, and every reference by number becomes a
reference by place. This holds for any spans: sorting is stable, so the children of a node, which
are sorted on their own, keep their order when all nodes are sorted.

* `Tree.place`: the place of the node at an address.
* `Node.Depicts`: a node of an arena agrees with a node of the tree.

Results:
* `Staging.perm_order`: sorting loses no node.
* `Staging.childList_sublist_order`: sorted children stand in the same order among all nodes.
* `Tree.exists_node`: at the place of an address stands the node of that address.
* `Tree.perm_below`: every place but that of the topmost node is referred to once.
-/

namespace Stepflow

/-! ## The order of the nodes -/

namespace Staging

variable (s : Staging)

theorem inOrder_iff {a b : Nat} :
    s.inOrder a b ↔ (s.span a).start < (s.span b).start ∨
      (s.span a).start = (s.span b).start ∧ (s.span b).stop ≤ (s.span a).stop := by
  rw [inOrder, Span.precedes, Bool.not_eq_true', Bool.eq_false_iff]
  simp only [ne_eq, Bool.or_eq_true, Bool.and_eq_true, decide_eq_true_eq, beq_iff_eq]
  omega

theorem inOrder_trans (a b c : Nat) (hab : s.inOrder a b) (hbc : s.inOrder b c) :
    s.inOrder a c := by
  rw [inOrder_iff] at *
  omega

theorem inOrder_total (a b : Nat) : (s.inOrder a b || s.inOrder b a) := by
  rw [Bool.or_eq_true, inOrder_iff, inOrder_iff]
  omega

theorem pairwise_order : s.order.Pairwise fun a b => s.inOrder a b :=
  List.pairwise_mergeSort s.inOrder_trans s.inOrder_total _

theorem childList_perm (n : Staged) : (s.childList n).Perm (n.children.map (·.2)) :=
  List.mergeSort_perm _ _

/-- Sorting all nodes leaves the sorted children of a node in their order. -/
theorem childList_sublist_order {n : Staged} (h : n ∈ s.nodes.toList) :
    (s.childList n).Sublist s.order := by
  refine List.sublist_mergeSort s.inOrder_trans s.inOrder_total
    (List.pairwise_mergeSort s.inOrder_trans s.inOrder_total _) ?_
  exact List.sublist_flatten_of_mem (List.mem_cons_of_mem _ (List.mem_map_of_mem h))

theorem perm_order_references :
    s.order.Perm (0 :: Plain.references s.nodes.toList) := by
  refine (List.mergeSort_perm _ _).trans ?_
  rw [List.flatten_cons, List.singleton_append, ← List.flatMap_def]
  exact (List.Perm.flatMap_left _ fun n _ => s.childList_perm n).cons 0

/-- Every node is sorted in, and none twice. -/
theorem perm_order (t : Tree) :
    (ofTree t).order.Perm (List.range t.addresses.length) := by
  rw [List.range_eq_range', ← t.size_plain]
  exact (ofTree t).perm_order_references.trans (Plain.perm_references_stage 0 t.plain)

variable (t : Tree)

theorem nodup_order : (ofTree t).order.Nodup :=
  (perm_order t).nodup_iff.mpr List.nodup_range

theorem mem_order {id : Nat} : id ∈ (ofTree t).order ↔ id < (ofTree t).nodes.size := by
  rw [(perm_order t).mem_iff, List.mem_range, t.size_staging]

theorem length_order : (ofTree t).order.length = t.addresses.length := by
  rw [(perm_order t).length_eq, List.length_range]

end Staging

/-! ## Places -/

theorem getElem?_foldl_setIfInBounds_of_not_mem {entries : List (Nat × Nat)} {places : Array Nat}
    {id : Nat} (h : id ∉ entries.map (·.1)) :
    (entries.foldl (fun places e => places.setIfInBounds e.1 e.2) places)[id]? = places[id]? := by
  induction entries generalizing places with
  | nil => rfl
  | cons e entries ih =>
    rw [List.map_cons, List.mem_cons, not_or] at h
    rw [List.foldl_cons, ih h.2, Array.getElem?_setIfInBounds, if_neg (Ne.symm h.1)]

/-- Entries with different indices do not overwrite each other. -/
theorem getElem?_foldl_setIfInBounds {entries : List (Nat × Nat)} {places : Array Nat} {id k : Nat}
    (hnodup : (entries.map (·.1)).Nodup) (h : (id, k) ∈ entries) (hid : id < places.size) :
    (entries.foldl (fun places e => places.setIfInBounds e.1 e.2) places)[id]? = some k := by
  induction entries generalizing places with
  | nil => cases h
  | cons e entries ih =>
    rw [List.map_cons, List.nodup_cons] at hnodup
    rw [List.foldl_cons]
    rcases List.mem_cons.mp h with rfl | h
    · rw [getElem?_foldl_setIfInBounds_of_not_mem hnodup.1, Array.getElem?_setIfInBounds,
        if_pos rfl, if_pos hid]
    · exact ih hnodup.2 h (by rwa [Array.size_setIfInBounds])

/-- The place of a number is its index in the list. -/
theorem placesOf_eq_idxOf {ids : List Nat} (h : ids.Perm (List.range ids.length)) {id : Nat}
    (hid : id ∈ ids) : (placesOf ids)[id]?.getD 0 = ids.idxOf id := by
  have hnodup : ids.Nodup := h.nodup_iff.mpr List.nodup_range
  have hlt : id < ids.length := List.mem_range.mp (h.mem_iff.mp hid)
  have hmem : (id, ids.idxOf id) ∈ ids.zipIdx :=
    List.mem_zipIdx_iff_getElem?.mpr (List.getElem?_idxOf hid)
  rw [placesOf, getElem?_foldl_setIfInBounds (by rwa [List.zipIdx_map_fst]) hmem
    (by rwa [Array.size_replicate])]
  rfl

theorem map_idxOf_self {ids : List Nat} (h : ids.Nodup) :
    ids.map ids.idxOf = List.range ids.length := by
  refine List.ext_getElem (by simp) fun i hi _ => ?_
  rw [List.getElem_map, List.getElem_range, h.idxOf_getElem]

/-- The places of a part of a list that is in the same order are ascending. -/
theorem pairwise_map_idxOf {ids part : List Nat} (h : ids.Nodup) (hpart : part.Sublist ids) :
    (part.map ids.idxOf).Pairwise (· < ·) := by
  have hsub := hpart.map ids.idxOf
  rw [map_idxOf_self h] at hsub
  exact List.pairwise_lt_range.sublist hsub

/-- The place of the node at an address. -/
def Tree.place (t : Tree) (p : Address) : Nat :=
  (Staging.ofTree t).order.idxOf (t.number p)

/-! ## The nodes of an arena -/

theorem length_attachGaps (source : List Char) (last : Span) (ns : List Node) :
    (attachGaps source last ns).length = ns.length := by
  induction ns generalizing last with
  | nil => rfl
  | cons n ns ih => rw [attachGaps, List.length_cons, List.length_cons, ih]

/-- The span in front of a node of a sequence; `last` stands in front of the first one. -/
def spanBefore (last : Span) (ns : List Node) : Nat → Span
  | 0 => last
  | k + 1 => (ns[k]?.map (·.span)).getD last

theorem getElem?_attachGaps (source : List Char) (last : Span) (ns : List Node) (k : Nat) :
    (attachGaps source last ns)[k]? =
      ns[k]?.map fun n => n.withGap (gap source (spanBefore last ns k) n.span) := by
  induction ns generalizing last k with
  | nil => rfl
  | cons n ns ih =>
    rw [attachGaps]
    cases k with
    | zero => rfl
    | succ k =>
      rw [List.getElem?_cons_succ, List.getElem?_cons_succ, ih]
      -- A node that is there has a node in front of it, so the start value does not matter.
      cases k with
      | zero => rfl
      | succ k =>
        cases hk : ns[k + 1]? with
        | none => rfl
        | some m =>
          have hlt : k < ns.length := by
            have := (List.getElem?_eq_some_iff.mp hk).1
            omega
          simp [spanBefore, List.getElem?_eq_getElem hlt]

theorem getElem?_filterMap_of_isSome {α β : Type} {f : α → Option β} {l : List α}
    (h : ∀ x ∈ l, (f x).isSome) (k : Nat) : (l.filterMap f)[k]? = l[k]?.bind f := by
  induction l generalizing k with
  | nil => rfl
  | cons x l ih =>
    obtain ⟨y, hy⟩ := Option.isSome_iff_exists.mp (h x List.mem_cons_self)
    rw [List.filterMap_cons_some hy]
    cases k with
    | zero => simp [hy]
    | succ k => exact ih (fun x hx => h x (List.mem_cons_of_mem _ hx)) k

namespace Staging

theorem getElem?_arranged (t : Tree) (k : Nat) :
    (ofTree t).arranged[k]? = (ofTree t).order[k]?.bind fun id =>
      (ofTree t).nodes[id]?.map ((ofTree t).node (placesOf (ofTree t).order)) := by
  refine getElem?_filterMap_of_isSome (fun id hid => ?_) k
  rw [Array.getElem?_eq_getElem ((mem_order t).mp hid)]
  rfl

theorem length_arranged (t : Tree) : (ofTree t).arranged.length = t.addresses.length := by
  rw [← length_order t]
  refine Nat.le_antisymm (List.length_filterMap_le _ _) (Nat.le_of_not_lt fun h => ?_)
  have hnone := getElem?_arranged t (ofTree t).arranged.length
  rw [List.getElem?_eq_none (Nat.le_refl _), List.getElem?_eq_getElem h, Option.bind_some] at hnone
  rw [Array.getElem?_eq_getElem ((mem_order t).mp (List.getElem_mem h))] at hnone
  cases hnone

end Staging

namespace Arena

theorem node?_ofTree (t : Tree) (source : List Char) (k : Nat) :
    (ofTree t source).node? k = (Staging.ofTree t).arranged[k]?.map fun n =>
      n.withGap (gap source (spanBefore ⟨0, 0⟩ (Staging.ofTree t).arranged k) n.span) := by
  rw [node?, ofTree_eq, List.getElem?_toArray]
  exact getElem?_attachGaps source ⟨0, 0⟩ (Staging.ofTree t).arranged k

/-- An arena has as many nodes as the tree. -/
theorem size_ofTree (t : Tree) (source : List Char) :
    (ofTree t source).size = t.addresses.length := by
  rw [← Staging.length_arranged t, ← length_attachGaps source ⟨0, 0⟩, size, ofTree_eq,
    List.size_toArray]

end Arena

/-- A node of an arena agrees with the node at an address: in kind and span, and the nodes it refers
    to are those that the node holds, in ascending order, each with its field. -/
structure Node.Depicts (place : Address → Nat) (m : Node) (n : Tree) (p : Address) : Prop where
  kind : m.kind = n.kind
  span : m.span = n.span.fromZero
  ascending : m.nodes.Pairwise (· < ·)
  nodes : m.fields.map (·.2) = m.nodes
  fields : ∀ f id, (f, id) ∈ m.fields ↔ ∃ q, n.fieldOf? q = some f ∧ place (p ++ q) = id

namespace Staging

variable {t : Tree} {s : Staged}

theorem mem_order_of_mem_children {id : Nat} (hs : s ∈ (ofTree t).nodes.toList)
    (h : id ∈ s.children.map (·.2)) : id ∈ (ofTree t).order :=
  ((ofTree t).childList_sublist_order hs).subset (((ofTree t).childList_perm s).mem_iff.mpr h)

theorem places_eq_idxOf {id : Nat} (h : id ∈ (ofTree t).order) :
    (placesOf (ofTree t).order)[id]?.getD 0 = (ofTree t).order.idxOf id :=
  placesOf_eq_idxOf (length_order t ▸ perm_order t) h

/-- A node is listed as a child, or as the topmost node, before its own children are listed. -/
theorem mem_take_of_lt_size {i : Nat} (hi : i < (ofTree t).nodes.size) :
    i ∈ ([0] :: ((ofTree t).nodes.toList.take i).map (ofTree t).childList).flatten := by
  rw [List.flatten_cons, List.singleton_append, List.mem_cons]
  have hmem : i ∈ (ofTree t).order := (mem_order t).mpr hi
  rw [(ofTree t).perm_order_references.mem_iff, List.mem_cons] at hmem
  refine hmem.imp_right fun hmem => ?_
  obtain ⟨n, hn, hchild⟩ := List.mem_flatMap.mp hmem
  obtain ⟨e, he, rfl⟩ := List.mem_map.mp hchild
  obtain ⟨w, hw⟩ := List.getElem?_of_mem hn
  have hlt : w < e.2 := by
    have := Plain.lt_of_mem_children_stage t.plain hw he
    omega
  have htake : ((ofTree t).nodes.toList.take e.2)[w]? = some n := by
    rw [List.getElem?_take_of_lt hlt, hw]
  exact List.mem_flatten.mpr ⟨_, List.mem_map_of_mem (List.mem_of_getElem? htake),
    ((ofTree t).childList_perm n).mem_iff.mpr hchild⟩

/-- Sorting keeps a child behind every node that was collected before its own node or is that node,
    unless the child precedes it. -/
theorem idxOf_lt_idxOf_of_le {i j w : Nat} (hs : (ofTree t).nodes[w]? = some s)
    (hj : j ∈ s.children.map (·.2)) (hiw : i ≤ w) (horder : (ofTree t).inOrder i j) :
    (ofTree t).order.idxOf i < (ofTree t).order.idxOf j := by
  have hw : w < (ofTree t).nodes.size := (Array.getElem?_eq_some_iff.mp hs).1
  have hlast : j ∈ (((ofTree t).nodes.toList.drop i).map (ofTree t).childList).flatten := by
    refine List.mem_flatten.mpr ⟨_, List.mem_map_of_mem ?_,
      ((ofTree t).childList_perm s).mem_iff.mpr hj⟩
    refine List.mem_of_getElem? (i := w - i) ?_
    rw [List.getElem?_drop, Nat.add_sub_cancel' hiw, Array.getElem?_toList, hs]
  have hpair : [i, j].Sublist
      ([0] :: (ofTree t).nodes.toList.map (ofTree t).childList).flatten := by
    rw [← List.take_append_drop i (ofTree t).nodes.toList, List.map_append, ← List.cons_append,
      List.flatten_append]
    exact (List.singleton_sublist.mpr (mem_take_of_lt_size (Nat.lt_of_le_of_lt hiw hw))).append
      (List.singleton_sublist.mpr hlast)
  have hsub := List.pair_sublist_mergeSort (ofTree t).inOrder_trans (ofTree t).inOrder_total horder
    hpair
  have := pairwise_map_idxOf (nodup_order t) hsub
  simpa using this

/-- References by number become references by place. -/
theorem nodes_node (hs : s ∈ (ofTree t).nodes.toList) :
    ((ofTree t).node (placesOf (ofTree t).order) s).nodes =
      ((ofTree t).childList s).map (ofTree t).order.idxOf :=
  List.map_congr_left fun _ hid =>
    places_eq_idxOf (((ofTree t).childList_sublist_order hs).subset hid)

theorem nodes_node_perm (hs : s ∈ (ofTree t).nodes.toList) :
    ((ofTree t).node (placesOf (ofTree t).order) s).nodes.Perm
      (s.children.map fun child => (ofTree t).order.idxOf child.2) := by
  have := ((ofTree t).childList_perm s).map (ofTree t).order.idxOf
  rw [nodes_node hs]
  rwa [List.map_map] at this

theorem fields_node_perm (hs : s ∈ (ofTree t).nodes.toList) :
    ((ofTree t).node (placesOf (ofTree t).order) s).fields.Perm
      (s.children.map fun child => (child.1, (ofTree t).order.idxOf child.2)) := by
  refine (List.mergeSort_perm _ _).trans (List.Perm.of_eq (List.map_congr_left fun child hc => ?_))
  rw [places_eq_idxOf (mem_order_of_mem_children hs (List.mem_map_of_mem hc))]

theorem nodes_node_ascending (hs : s ∈ (ofTree t).nodes.toList) :
    ((ofTree t).node (placesOf (ofTree t).order) s).nodes.Pairwise (· < ·) := by
  rw [nodes_node hs]
  exact pairwise_map_idxOf (nodup_order t) ((ofTree t).childList_sublist_order hs)

/-- The fields and the children are sorted differently, and still in the same order. -/
theorem fields_node_map_snd (hs : s ∈ (ofTree t).nodes.toList) :
    ((ofTree t).node (placesOf (ofTree t).order) s).fields.map (·.2) =
      ((ofTree t).node (placesOf (ofTree t).order) s).nodes := by
  refine List.Perm.eq_of_pairwise (fun _ _ _ _ hab hba => Nat.le_antisymm hab hba) ?_ ?_ ?_
  · refine List.pairwise_map.mpr ?_
    refine (List.pairwise_mergeSort (fun a b c hab hbc => ?_) (fun a b => ?_) _).imp fun h => ?_
    · simp only [decide_eq_true_eq] at hab hbc ⊢
      omega
    · simp only [Bool.or_eq_true, decide_eq_true_eq]
      omega
    · simpa using h
  · exact (nodes_node_ascending hs).imp Nat.le_of_lt
  · have := (fields_node_perm hs).map (·.2)
    rw [List.map_map] at this
    exact this.trans (nodes_node_perm hs).symm

end Staging

/-- The arena has the collected node with a number at the place of that number. -/
theorem Arena.node?_idxOf {t : Tree} (source : List Char) {id : Nat} {s : Staged}
    (hs : (Staging.ofTree t).nodes[id]? = some s) :
    ∃ text, (ofTree t source).node? ((Staging.ofTree t).order.idxOf id) =
      some (((Staging.ofTree t).node (placesOf (Staging.ofTree t).order) s).withGap text) := by
  have hid : id ∈ (Staging.ofTree t).order :=
    (Staging.mem_order t).mpr (Array.getElem?_eq_some_iff.mp hs).1
  rw [node?_ofTree, Staging.getElem?_arranged, List.getElem?_idxOf hid, Option.bind_some, hs]
  exact ⟨_, rfl⟩

namespace Tree

variable {t n : Tree} {p : Address}

theorem number_mem_order (h : t.node? p = some n) : t.number p ∈ (Staging.ofTree t).order := by
  rw [Staging.mem_order, t.size_staging]
  exact List.idxOf_lt_length_of_mem (mem_addresses.mpr (by rw [h]; rfl))

/-- At the place of an address stands the node of that address. -/
theorem exists_node (source : List Char) (h : t.node? p = some n) :
    ∃ m, (Arena.ofTree t source).node? (t.place p) = some m ∧ m.Depicts t.place n p := by
  obtain ⟨s, hs, hd⟩ := exists_staged h
  have hmem : s ∈ (Staging.ofTree t).nodes.toList :=
    List.mem_of_getElem? (Array.getElem?_toList ▸ hs)
  obtain ⟨text, hnode⟩ := Arena.node?_idxOf source hs
  refine ⟨_, hnode, hd.kind, ?_, Staging.nodes_node_ascending hmem,
    Staging.fields_node_map_snd hmem, ?_⟩
  · exact congrArg Span.fromZero hd.span
  · intro f id
    refine ((Staging.fields_node_perm hmem).mem_iff).trans ?_
    rw [List.mem_map]
    constructor
    · rintro ⟨⟨g, k⟩, hk, hg⟩
      obtain ⟨rfl, rfl⟩ := Prod.mk.inj hg
      obtain ⟨q, hq, rfl⟩ := (hd.children g k).mp hk
      exact ⟨q, hq, rfl⟩
    · rintro ⟨q, hq, rfl⟩
      exact ⟨(f, t.number (p ++ q)), (hd.children f _).mpr ⟨q, hq, rfl⟩, rfl⟩

/-- The topmost node is collected first. -/
theorem place_nil (t : Tree) : t.place [] = (Staging.ofTree t).order.idxOf 0 := by
  rw [place, number, addresses, branch, Branch.addresses, List.idxOf_cons_self]

theorem place_lt (source : List Char) (h : t.node? p = some n) :
    t.place p < (Arena.ofTree t source).size := by
  rw [Arena.size_ofTree, ← Staging.length_order]
  exact List.idxOf_lt_length_of_mem (number_mem_order h)

/-- Different nodes have different places. -/
theorem place_inj {q : Address} (h : t.node? p = some n) (hpq : t.place p = t.place q) : p = q := by
  have hnumber : t.number p = t.number q := (List.idxOf_inj (number_mem_order h)).mp hpq
  exact (List.idxOf_inj (mem_addresses.mpr (by rw [h]; rfl))).mp hnumber

/-- Every place is that of a node. -/
theorem exists_address {source : List Char} {k : Nat} (hk : k < (Arena.ofTree t source).size) :
    ∃ p n, t.node? p = some n ∧ t.place p = k := by
  rw [Arena.size_ofTree, ← Staging.length_order] at hk
  have hid := (Staging.mem_order t).mp (List.getElem_mem hk)
  rw [t.size_staging] at hid
  have hmem := List.getElem_mem hid
  obtain ⟨n, hn⟩ := Option.isSome_iff_exists.mp (mem_addresses.mp hmem)
  refine ⟨_, n, hn, ?_⟩
  rw [place, number, t.nodup_addresses.idxOf_getElem, (Staging.nodup_order t).idxOf_getElem]

end Tree

/-! ## References -/

theorem map_nodes_attachGaps (source : List Char) (last : Span) (ns : List Node) :
    (attachGaps source last ns).map (·.nodes) = ns.map (·.nodes) := by
  induction ns generalizing last with
  | nil => rfl
  | cons n ns ih => rw [attachGaps, List.map_cons, List.map_cons, ih]; rfl

theorem filterMap_range_getElem? {α β : Type} (nodes : Array α) (f : α → β) :
    (List.range nodes.size).filterMap (fun id => nodes[id]?.map f) = nodes.toList.map f := by
  refine List.ext_getElem? fun k => ?_
  rw [getElem?_filterMap_of_isSome, List.getElem?_map]
  · by_cases hk : k < nodes.size
    · rw [List.getElem?_range hk, Option.bind_some, Array.getElem?_toList]
    · rw [List.getElem?_eq_none (by simpa using hk), List.getElem?_eq_none (by simpa using hk)]
      rfl
  · intro id hid
    rw [Array.getElem?_eq_getElem (List.mem_range.mp hid)]
    rfl

namespace Staging

theorem arranged_perm (t : Tree) :
    (ofTree t).arranged.Perm
      ((ofTree t).nodes.toList.map ((ofTree t).node (placesOf (ofTree t).order))) := by
  rw [← filterMap_range_getElem?, t.size_staging]
  exact (perm_order t).filterMap _

end Staging

/-- Every place but that of the topmost node is referred to once. -/
theorem Tree.perm_below (t : Tree) (source : List Char) :
    (t.place [] :: (Arena.ofTree t source).nodes.toList.flatMap (·.nodes)).Perm
      (List.range (Arena.ofTree t source).size) := by
  have hnodes : (Arena.ofTree t source).nodes.toList.flatMap (·.nodes) =
      (Staging.ofTree t).arranged.flatMap (·.nodes) := by
    rw [Arena.ofTree_eq, List.flatMap_def, List.flatMap_def]
    exact congrArg List.flatten (map_nodes_attachGaps source ⟨0, 0⟩ (Staging.ofTree t).arranged)
  have hrefs : ((Staging.ofTree t).arranged.flatMap (·.nodes)).Perm
      ((Plain.references (Staging.ofTree t).nodes.toList).map (Staging.ofTree t).order.idxOf) := by
    refine ((Staging.arranged_perm t).flatMap_right _).trans ?_
    rw [List.flatMap_map, Plain.references, List.map_flatMap]
    refine List.Perm.flatMap_left _ fun s hs => ?_
    rw [List.map_map]
    exact Staging.nodes_node_perm hs
  rw [hnodes, Arena.size_ofTree, ← Staging.length_order, ← map_idxOf_self (Staging.nodup_order t),
    place_nil]
  exact (hrefs.cons _).trans
    (((Staging.ofTree t).perm_order_references.map (Staging.ofTree t).order.idxOf).symm)

theorem Tree.nodup_references (t : Tree) (source : List Char) :
    (t.place [] :: (Arena.ofTree t source).nodes.toList.flatMap (·.nodes)).Nodup :=
  (t.perm_below source).nodup_iff.mpr List.nodup_range

end Stepflow
