import Mathlib
import Stepflow.Proofs.Gaps

/-!
# What decides a place

The place of a node is the number of the nodes in front of it. If equal spans occur only along one
way down, then the spans and the ways down decide which nodes those are, whatever the order in which
the nodes were collected.

* `Tree.NodeAddress.Precedes`: a span comes first, or of two equal spans that of the node around.
* `Tree.Distinct`: two nodes have the same span only if one of them lies around the other one.

Results:
* `Tree.NodeAddress.place_lt_of_precedes`, `Tree.Distinct.place_lt_iff`: how places follow from
  spans.
* `Tree.NodeAddress.place_eq_card`: a place is the number of nodes in front of it.
* `Tree.NodeAddress.place_eq_of_before`: two trees with corresponding nodes in front of a node give
  it the same place.
* `Arena.node?_congr`: what a node of an arena consists of is decided by a few facts about its node
  in the tree.
-/

namespace Stepflow

namespace Tree

/-- Two nodes have the same span only if one of them lies around the other one. -/
def Distinct (t : Tree) : Prop :=
  ∀ p q : t.NodeAddress, p.node.span = q.node.span → p.1 <+: q.1 ∨ q.1 <+: p.1

instance (t : Tree) : Decidable t.Distinct :=
  inferInstanceAs (Decidable (∀ p q : t.NodeAddress, p.node.span = q.node.span → _))

namespace NodeAddress

variable {t : Tree} {p q : t.NodeAddress}

/-- The span of the first node comes first; or the spans are equal, and the first node lies around
    the second one. -/
def Precedes (p q : t.NodeAddress) : Prop :=
  p.node.span.precedes q.node.span ∨ p.node.span = q.node.span ∧ p.1 <+: q.1 ∧ p ≠ q

/-! ## Numbers -/

theorem exists_child_of_owns (h : p.Owns q) :
    ∃ s, (Staging.ofTree t).nodes[t.number p.1]? = some s ∧
      t.number q.1 ∈ s.children.map (·.2) := by
  obtain ⟨s, hs, hd⟩ := exists_staged p.node?_eq
  obtain ⟨f, r, hr, hf⟩ := owns_iff_exists_holds.mp h
  have hchild : (f, t.number q.1) ∈ s.children := (hd.children f _).mpr ⟨r, hf, by rw [hr]⟩
  exact ⟨s, hs, List.mem_map_of_mem hchild⟩

theorem number_lt_of_owns (h : p.Owns q) : t.number p.1 < t.number q.1 := by
  obtain ⟨s, hs, hq⟩ := exists_child_of_owns h
  obtain ⟨e, he, hid⟩ := List.mem_map.mp hq
  have hs : (t.plain.stage 0)[t.number p.1]? = some s := by
    rwa [Staging.ofTree, List.getElem?_toArray] at hs
  have := Plain.lt_of_mem_children_stage t.plain hs he
  omega

/-- A node is collected before those below it. -/
theorem number_le_number (h : p.1 <+: q.1) : t.number p.1 ≤ t.number q.1 := by
  induction hlen : q.1.length using Nat.strong_induction_on generalizing q with
  | _ len ih =>
    by_cases hpq : p = q
    · rw [hpq]
    · obtain ⟨r, hown, hpr, hlt, -⟩ := Arena.exists_owner_below [] h hpq
      have hle := ih _ (hlen ▸ hlt) hpr rfl
      have := number_lt_of_owns hown
      omega

/-! ## Places -/

theorem span_number (p : t.NodeAddress) : (Staging.ofTree t).span (t.number p.1) = p.node.span := by
  rw [← spanAt_place p.node?_eq]
  exact (spanAt_idxOf (number_mem_order p.node?_eq)).symm

theorem place_lt_of_precedes (h : p.Precedes q) : t.place p.1 < t.place q.1 := by
  rcases h with hspan | ⟨hspan, hway, hne⟩
  · by_contra hle
    rw [Span.precedes, Bool.or_eq_true, Bool.and_eq_true, decide_eq_true_eq, decide_eq_true_eq,
      beq_iff_eq] at hspan
    rcases Nat.lt_or_eq_of_le (Nat.le_of_not_lt hle) with hlt | heq
    · have := Arena.spanAt_ordered hlt (place_lt [] p.node?_eq)
      rw [spanAt_place p.node?_eq, spanAt_place q.node?_eq] at this
      omega
    · obtain rfl : q = p := Subtype.ext (place_inj q.node?_eq heq)
      omega
  · -- The node that holds `q` was collected no earlier than `p`, and sorting keeps equal spans.
    obtain ⟨r, hown, hpr, -, -⟩ := Arena.exists_owner_below [] hway hne
    obtain ⟨s, hs, hchild⟩ := exists_child_of_owns hown
    refine Staging.idxOf_lt_idxOf_of_le hs hchild (number_le_number hpr) ?_
    rw [Staging.inOrder_iff, span_number, span_number, hspan]
    omega

theorem precedes_total (hd : t.Distinct) (p q : t.NodeAddress) :
    p.Precedes q ∨ p = q ∨ q.Precedes p := by
  by_cases hpq : p = q
  · exact .inr (.inl hpq)
  by_cases hspan : p.node.span = q.node.span
  · rcases hd p q hspan with hway | hway
    · exact .inl (.inr ⟨hspan, hway, hpq⟩)
    · exact .inr (.inr (.inr ⟨hspan.symm, hway, Ne.symm hpq⟩))
  · have hne : p.node.span.start ≠ q.node.span.start ∨ p.node.span.stop ≠ q.node.span.stop := by
      by_contra h
      simp only [not_or, not_not] at h
      cases hp : p.node.span
      cases hq : q.node.span
      simp_all
    simp only [Precedes, Span.precedes, Bool.or_eq_true, Bool.and_eq_true, decide_eq_true_eq,
      beq_iff_eq]
    omega

/-- A place is the number of the nodes in front of it. -/
theorem place_eq_card (p : t.NodeAddress) :
    t.place p.1 = Nat.card {q : t.NodeAddress // t.place q.1 < t.place p.1} := by
  let toPlace : {q : t.NodeAddress // t.place q.1 < t.place p.1} → Fin (t.place p.1) :=
    fun q => ⟨t.place q.1.1, q.2⟩
  have hbij : Function.Bijective toPlace := by
    constructor
    · intro q r hqr
      exact Subtype.ext (Subtype.ext (place_inj q.1.node?_eq (Fin.val_eq_of_eq hqr)))
    · intro k
      obtain ⟨q, hq⟩ := exists_place (Nat.lt_trans k.isLt (place_lt [] p.node?_eq))
      exact ⟨⟨q, hq ▸ k.isLt⟩, Fin.ext hq⟩
  rw [Nat.card_eq_of_bijective toPlace hbij, Nat.card_eq_fintype_card, Fintype.card_fin]

/-- If the nodes in front of a node are those that come from the nodes in front of it in another
    tree, then it has the same place there. -/
theorem place_eq_of_before {u : Tree} {φ : t.NodeAddress → u.NodeAddress}
    (hinj : Function.Injective φ)
    (hbefore : ∀ r, u.place r.1 < u.place (φ p).1 ↔
      ∃ q, φ q = r ∧ t.place q.1 < t.place p.1) :
    u.place (φ p).1 = t.place p.1 := by
  let carry : {q : t.NodeAddress // t.place q.1 < t.place p.1} →
      {r : u.NodeAddress // u.place r.1 < u.place (φ p).1} :=
    fun q => ⟨φ q.1, (hbefore _).mpr ⟨q.1, rfl, q.2⟩⟩
  have hbij : Function.Bijective carry := by
    constructor
    · intro q r hqr
      exact Subtype.ext (hinj (congrArg Subtype.val hqr))
    · rintro ⟨r, hr⟩
      obtain ⟨q, rfl, hq⟩ := (hbefore r).mp hr
      exact ⟨⟨q, hq⟩, rfl⟩
  rw [place_eq_card (φ p), place_eq_card p, Nat.card_eq_of_bijective carry hbij]

end NodeAddress

/-- Where equal spans occur only along one way down, the spans and the ways down decide the order
    of the places. -/
theorem Distinct.place_lt_iff {t : Tree} (hd : t.Distinct) {p q : t.NodeAddress} :
    t.place p.1 < t.place q.1 ↔ p.Precedes q := by
  refine ⟨fun hlt => ?_, NodeAddress.place_lt_of_precedes⟩
  rcases NodeAddress.precedes_total hd p q with h | rfl | h
  · exact h
  · exact absurd hlt (Nat.lt_irrefl _)
  · have := NodeAddress.place_lt_of_precedes h
    omega

end Tree

/-! ## Nodes of an arena -/

/-- References that are sorted by their places are known by their members. -/
theorem fields_eq_of_mem_iff {xs ys : List (Field × Nat)} (hxs : (xs.map (·.2)).Pairwise (· < ·))
    (hys : (ys.map (·.2)).Pairwise (· < ·)) (h : ∀ f id, (f, id) ∈ xs ↔ (f, id) ∈ ys) :
    xs = ys := by
  rw [List.pairwise_map] at hxs hys
  have hnodup : ∀ {zs : List (Field × Nat)}, zs.Pairwise (fun a b => a.2 < b.2) → zs.Nodup :=
    fun hzs => hzs.imp fun {a b} hab heq => by
      rw [heq] at hab
      exact Nat.lt_irrefl _ hab
  have hperm : xs.Perm ys :=
    (List.perm_ext_iff_of_nodup (hnodup hxs) (hnodup hys)).mpr fun e => h e.1 e.2
  refine hperm.eq_of_pairwise (fun a b _ _ hab hba => ?_) hxs hys
  omega

namespace Arena

theorem size_eq_card (t : Tree) (source : List Char) :
    (ofTree t source).size = Fintype.card t.NodeAddress := by
  rw [size_ofTree]
  exact (Fintype.card_of_subtype ⟨(t.addresses : Multiset Address), t.nodup_addresses⟩
    fun _ => Tree.mem_addresses).symm

/-- Kind and span of a node, what it holds at which places, and the text of its gap decide what
    stands at its place. -/
theorem node?_congr {t u : Tree} {text text' : List Char} {p : t.NodeAddress} {q : u.NodeAddress}
    (hplace : u.place q.1 = t.place p.1) (hkind : q.node.kind = p.node.kind)
    (hspan : q.node.span = p.node.span)
    (hholds : ∀ f id, (∃ r, q.Holds f r ∧ u.place r.1 = id) ↔ ∃ r, p.Holds f r ∧ t.place r.1 = id)
    (hgap : Text.slice text' ((ofTree u text').gapRange (t.place p.1)).start
        ((ofTree u text').gapRange (t.place p.1)).stop =
      Text.slice text ((ofTree t text).gapRange (t.place p.1)).start
        ((ofTree t text).gapRange (t.place p.1)).stop) :
    (ofTree u text').node? (t.place p.1) = (ofTree t text).node? (t.place p.1) := by
  obtain ⟨m, hm, hdm⟩ := Tree.exists_node text p.node?_eq
  obtain ⟨n, hn, hdn⟩ := Tree.exists_node text' q.node?_eq
  obtain ⟨m', hm', hcomment, hindent⟩ := node?_gapRange (Tree.place_lt text p.node?_eq)
  obtain ⟨n', hn', hcomment', hindent'⟩ := node?_gapRange (Tree.place_lt text' q.node?_eq)
  obtain rfl : m' = m := Option.some.inj (hm'.symm.trans hm)
  obtain rfl : n' = n := Option.some.inj (hn'.symm.trans hn)
  rw [hplace] at hn hcomment' hindent'
  have hfields : n'.fields = m'.fields := by
    refine fields_eq_of_mem_iff (hdn.nodes ▸ hdn.ascending) (hdm.nodes ▸ hdm.ascending) ?_
    intro f id
    rw [hdn.fields, hdm.fields, Tree.NodeAddress.exists_holds_iff,
      Tree.NodeAddress.exists_holds_iff]
    exact hholds f id
  have hnodes : n'.nodes = m'.nodes := by rw [← hdn.nodes, ← hdm.nodes, hfields]
  have hkind' : n'.kind = m'.kind := by rw [hdn.kind, hdm.kind, hkind]
  have hspan' : n'.span = m'.span := by rw [hdn.span, hdm.span, hspan]
  rw [hgap, ← hcomment] at hcomment'
  rw [hgap, ← hindent] at hindent'
  rw [hn, hm]
  cases m'
  cases n'
  simp_all

end Arena

end Stepflow
