import Mathlib.Data.Fintype.Basic
import Mathlib.Logic.Relation
import Stepflow.Proofs.Outline

/-!
# Nested spans

If every node lies inside the node that holds it, then the order of the places agrees with the tree:
a node comes before those below it, also where their spans are equal, and the topmost node is first.

* `Tree.Nested`: every node lies inside the node that holds it.
* `Tree.Laminar`: moreover no span is empty, and the nodes that one node holds do not overlap.
* `Tree.spanAt`: the span in the tree of the node at a place.
* `Arena.Above`: one place is another one or lies on the way up from it.

Results:
* `Arena.lt_of_mem_below`: a node comes before the nodes that it holds.
* `Arena.place_top`, `Arena.exists_outline_root`: the topmost node comes first, and everything lies
  below the first place.
* `Arena.above_place_iff`: a place is above another one if the address of its node leads to that of
  the other one.
* `Arena.above_or_fork`: of two nodes one is above the other, or they lie below different nodes that
  one node holds.
* `Arena.above_or_stop_le`: in a laminar tree a node that is not above a later one ends before it
  starts.
-/

namespace Stepflow

/-! ## Spans -/

namespace Span

/-- The first span lies inside the second one. -/
def Within (x y : Span) : Prop :=
  y.start ≤ x.start ∧ x.stop ≤ y.stop

/-- One span ends where the other one starts, or before. -/
def Apart (x y : Span) : Prop :=
  x.stop ≤ y.start ∨ y.stop ≤ x.start

instance (x y : Span) : Decidable (x.Within y) :=
  inferInstanceAs (Decidable (_ ∧ _))

instance (x y : Span) : Decidable (x.Apart y) :=
  inferInstanceAs (Decidable (_ ∨ _))

theorem Within.refl (x : Span) : x.Within x :=
  ⟨Nat.le_refl _, Nat.le_refl _⟩

theorem Within.trans {x y z : Span} (hxy : x.Within y) (hyz : y.Within z) : x.Within z :=
  ⟨Nat.le_trans hyz.1 hxy.1, Nat.le_trans hxy.2 hyz.2⟩

theorem Within.fromZero {x y : Span} (h : x.Within y) : x.fromZero.Within y.fromZero :=
  ⟨Nat.sub_le_sub_right h.1 1, Nat.sub_le_sub_right h.2 1⟩

end Span

/-! ## Trees -/

namespace Tree

instance (t : Tree) : Fintype t.NodeAddress :=
  Fintype.subtype ⟨t.addresses, t.nodup_addresses⟩ fun _ => mem_addresses

instance {t : Tree} (p q : t.NodeAddress) : Decidable (p.Owns q) :=
  decidable_of_iff (p.1 <+: q.1 ∧ (p.node.fieldOf? (q.1.drop p.1.length)).isSome) <| by
    rw [NodeAddress.owns_iff_exists_holds]
    constructor
    · rintro ⟨⟨r, hr⟩, hsome⟩
      rw [← hr, List.drop_left] at hsome
      obtain ⟨f, hf⟩ := Option.isSome_iff_exists.mp hsome
      exact ⟨f, r, hr.symm, hf⟩
    · rintro ⟨f, r, hr, hf⟩
      rw [hr, List.drop_left, hf]
      exact ⟨List.prefix_append _ _, rfl⟩

/-- Every node lies inside the node that holds it. -/
def Nested (t : Tree) : Prop :=
  ∀ p q : t.NodeAddress, p.Owns q → q.node.span.Within p.node.span

instance (t : Tree) : Decidable t.Nested :=
  inferInstanceAs (Decidable (∀ p q : t.NodeAddress, p.Owns q → _))

/-- No span is empty, every node lies inside the node that holds it, and the nodes that one node
    holds do not overlap. -/
structure Laminar (t : Tree) : Prop where
  nonempty : ∀ p : t.NodeAddress, p.node.span.start < p.node.span.stop
  nested : t.Nested
  apart : ∀ p q r : t.NodeAddress, p.Owns q → p.Owns r → q ≠ r → q.node.span.Apart r.node.span

instance (t : Tree) : Decidable t.Laminar :=
  decidable_of_iff ((∀ p : t.NodeAddress, p.node.span.start < p.node.span.stop) ∧ t.Nested ∧
      ∀ p q r : t.NodeAddress, p.Owns q → p.Owns r → q ≠ r → q.node.span.Apart r.node.span)
    ⟨fun h => ⟨h.1, h.2.1, h.2.2⟩, fun h => ⟨h.nonempty, h.nested, h.apart⟩⟩

/-- The span in the tree of the node at a place. -/
def spanAt (t : Tree) (k : Nat) : Span :=
  (Staging.ofTree t).span ((Staging.ofTree t).order.getD k 0)

variable {t n : Tree} {p : Address}

theorem spanAt_place (h : t.node? p = some n) : t.spanAt (t.place p) = n.span := by
  obtain ⟨s, hs, hd⟩ := exists_staged h
  rw [spanAt, place, List.getD_eq_getElem?_getD, List.getElem?_idxOf (number_mem_order h),
    Option.getD_some, Staging.span, hs]
  exact hd.span

theorem spanAt_idxOf {id : Nat} (h : id ∈ (Staging.ofTree t).order) :
    t.spanAt ((Staging.ofTree t).order.idxOf id) = (Staging.ofTree t).span id := by
  rw [spanAt, List.getD_eq_getElem?_getD, List.getElem?_idxOf h, Option.getD_some]

end Tree

/-! ## Places -/

namespace Arena

variable {t : Tree} {source : List Char} {k l c d : Nat}

theorem exists_owns_of_mem_below (h : c ∈ (ofTree t source).below k) :
    ∃ p q : t.NodeAddress, p.Owns q ∧ t.place p.1 = k ∧ t.place q.1 = c := by
  obtain ⟨m, hm, hc⟩ := mem_below.mp h
  rw [Array.getElem?_toList] at hm
  obtain ⟨p, rfl, hd⟩ := exists_depicts hm
  rw [← hd.nodes, List.mem_map] at hc
  obtain ⟨⟨f, c⟩, he, rfl⟩ := hc
  obtain ⟨q, hq, hid⟩ := Tree.NodeAddress.exists_holds_iff.mp ((hd.fields f c).mp he)
  exact ⟨p, q, Tree.NodeAddress.owns_iff_exists_holds.mpr ⟨f, hq⟩, rfl, hid⟩

theorem lt_size_of_mem_below (h : c ∈ (ofTree t source).below k) : c < (ofTree t source).size := by
  obtain ⟨p, q, -, -, rfl⟩ := exists_owns_of_mem_below h
  exact Tree.place_lt source q.node?_eq

theorem within_of_mem_below (hn : t.Nested) (h : c ∈ (ofTree t source).below k) :
    (t.spanAt c).Within (t.spanAt k) := by
  obtain ⟨p, q, hown, rfl, rfl⟩ := exists_owns_of_mem_below h
  rw [Tree.spanAt_place p.node?_eq, Tree.spanAt_place q.node?_eq]
  exact hn p q hown

theorem apart_of_mem_below (hl : t.Laminar) (hc : c ∈ (ofTree t source).below k)
    (hd : d ∈ (ofTree t source).below k) (hne : c ≠ d) : (t.spanAt c).Apart (t.spanAt d) := by
  obtain ⟨p, q, hown, rfl, rfl⟩ := exists_owns_of_mem_below hc
  obtain ⟨p', r, hown', hp, rfl⟩ := exists_owns_of_mem_below hd
  obtain rfl : p' = p := Subtype.ext (Tree.place_inj p'.node?_eq hp)
  rw [Tree.spanAt_place q.node?_eq, Tree.spanAt_place r.node?_eq]
  exact hl.apart p' q r hown hown' fun hqr => hne (by rw [hqr])

theorem start_lt_stop (hl : t.Laminar) (hk : k < (ofTree t source).size) :
    (t.spanAt k).start < (t.spanAt k).stop := by
  obtain ⟨p, rfl⟩ := Tree.NodeAddress.exists_place hk
  rw [Tree.spanAt_place p.node?_eq]
  exact hl.nonempty p

/-- The span of a node of the arena is that of the tree, counted from 0. -/
theorem span_eq_fromZero {m : Node} (h : (ofTree t source).node? k = some m) :
    m.span = (t.spanAt k).fromZero := by
  obtain ⟨p, rfl, hd⟩ := exists_depicts h
  rw [Tree.spanAt_place p.node?_eq, hd.span]

/-- A later place does not start earlier, and of those that start together it does not end later. -/
theorem spanAt_ordered (hkl : k < l) (hl : l < (ofTree t source).size) :
    (t.spanAt k).start < (t.spanAt l).start ∨
      (t.spanAt k).start = (t.spanAt l).start ∧ (t.spanAt l).stop ≤ (t.spanAt k).stop := by
  rw [size_ofTree, ← Staging.length_order] at hl
  have hpair := List.pairwise_iff_getElem.mp (Staging.ofTree t).pairwise_order k l (by omega) hl hkl
  rw [Staging.inOrder_iff] at hpair
  simpa [Tree.spanAt, List.getElem?_eq_getElem hl, List.getElem?_eq_getElem (Nat.lt_trans hkl hl)]
    using hpair

theorem lt_of_start_lt (hl : l < (ofTree t source).size)
    (h : (t.spanAt l).start < (t.spanAt k).start) : l < k := by
  rcases Nat.lt_trichotomy l k with hlk | rfl | hkl
  · exact hlk
  · exact absurd h (Nat.lt_irrefl _)
  · have := spanAt_ordered hkl hl
    omega

/-- A node comes before the nodes that it holds, also where their spans are equal. -/
theorem lt_of_mem_below (hn : t.Nested) (h : c ∈ (ofTree t source).below k) : k < c := by
  have hwithin := within_of_mem_below hn h
  obtain ⟨p, q, hown, rfl, rfl⟩ := exists_owns_of_mem_below h
  obtain ⟨s, hs, hd⟩ := Tree.exists_staged p.node?_eq
  obtain ⟨f, r, hr, hf⟩ := Tree.NodeAddress.owns_iff_exists_holds.mp hown
  have hchild : (f, t.number q.1) ∈ s.children := (hd.children f _).mpr ⟨r, hf, by rw [hr]⟩
  refine Staging.idxOf_lt_idxOf_of_le hs (List.mem_map_of_mem hchild) (Nat.le_refl _) ?_
  rw [Staging.inOrder_iff, ← Tree.spanAt_idxOf (Tree.number_mem_order p.node?_eq),
    ← Tree.spanAt_idxOf (Tree.number_mem_order q.node?_eq)]
  obtain ⟨hstart, hstop⟩ := hwithin
  change (t.spanAt (t.place p.1)).start < (t.spanAt (t.place q.1)).start ∨ _
  rcases Nat.lt_or_eq_of_le hstart with hlt | heq
  · exact .inl hlt
  · exact .inr ⟨heq, hstop⟩

/-- A sibling that comes earlier ends before the node starts. -/
theorem stop_le_of_siblings (hl : t.Laminar) {c m : Nat} (hc : c ∈ (ofTree t source).below m)
    (hk : k ∈ (ofTree t source).below m) (hck : c < k) :
    (t.spanAt c).stop ≤ (t.spanAt k).start := by
  rcases apart_of_mem_below hl hc hk (Nat.ne_of_lt hck) with hapart | hapart
  · exact hapart
  · have := spanAt_ordered hck (lt_size_of_mem_below hk)
    have := start_lt_stop hl (lt_size_of_mem_below hk)
    omega

/-! ### The way up -/

/-- The second place is the first one, or lies somewhere below it. -/
def Above (a : Arena) : Nat → Nat → Prop :=
  Relation.ReflTransGen fun k c => c ∈ a.below k

theorem Above.within (hn : t.Nested) (h : (ofTree t source).Above k c) :
    (t.spanAt c).Within (t.spanAt k) := by
  induction h with
  | refl => exact Span.Within.refl _
  | tail _ hstep ih => exact (within_of_mem_below hn hstep).trans ih

theorem Above.le (hn : t.Nested) (h : (ofTree t source).Above k c) : k ≤ c := by
  induction h with
  | refl => exact Nat.le_refl _
  | tail _ hstep ih => exact Nat.le_of_lt (Nat.lt_of_le_of_lt ih (lt_of_mem_below hn hstep))

theorem Above.lt_size (h : (ofTree t source).Above k c) (hk : k < (ofTree t source).size) :
    c < (ofTree t source).size := by
  cases h with
  | refl => exact hk
  | tail _ hstep => exact lt_size_of_mem_below hstep

theorem Outlines.above {a : Arena} {o : Outline} (h : a.Outlines o) (hc : c ∈ o.places) :
    a.Above o.place c := by
  induction h with
  | @intro id n parts hnode hnodes hall ih =>
    rcases Outline.mem_places.mp hc with rfl | ⟨o, ho, hc⟩
    · exact .refl
    · refine .head ?_ (ih o ho hc)
      rw [(Outlines.intro hnode hnodes hall).below_eq]
      exact List.mem_map_of_mem ho

/-- The places of an outline are the first one and all below it. -/
theorem Outlines.mem_places_iff {a : Arena} {o : Outline} (h : a.Outlines o) :
    c ∈ o.places ↔ a.Above o.place c := by
  refine ⟨h.above, fun habove => ?_⟩
  induction habove with
  | refl => exact o.place_mem_places
  | tail _ hstep ih =>
    obtain ⟨o', ho', rfl, hrun⟩ := h.exists_of_mem ih
    rw [ho'.below_eq, List.mem_map] at hstep
    obtain ⟨part, hpart, rfl⟩ := hstep
    exact hrun.subset (Outline.mem_places.mpr (.inr ⟨part, hpart, part.place_mem_places⟩))

/-- Every node but the topmost one stands directly below the node that holds it. -/
theorem exists_owner (source : List Char) {q : t.NodeAddress} (hq : q ≠ .top t) :
    ∃ p : t.NodeAddress, p.Owns q ∧ t.place q.1 ∈ (ofTree t source).below (t.place p.1) := by
  have htop : t.place q.1 ≠ t.place [] := fun h => hq (Subtype.ext (Tree.place_inj q.node?_eq h))
  obtain ⟨k, hk⟩ := exists_mem_below t source (Tree.place_lt source q.node?_eq) htop
  obtain ⟨p, q', hown, rfl, hq'⟩ := exists_owns_of_mem_below hk
  obtain rfl : q' = q := Subtype.ext (Tree.place_inj q'.node?_eq hq')
  exact ⟨p, hown, hk⟩

/-- The node that holds a node below another one is that one or lies below it as well. -/
theorem exists_owner_below (source : List Char) {p q : t.NodeAddress} (h : p.1 <+: q.1)
    (hne : p ≠ q) :
    ∃ r : t.NodeAddress, r.Owns q ∧ p.1 <+: r.1 ∧ r.1.length < q.1.length ∧
      t.place q.1 ∈ (ofTree t source).below (t.place r.1) := by
  have htop : q ≠ .top t := by
    rintro rfl
    exact hne (Subtype.ext (List.prefix_nil.mp h))
  obtain ⟨r, hown, hbelow⟩ := exists_owner source htop
  have ⟨hrq, hrne, hnearest⟩ := hown
  refine ⟨r, hown, ?_, ?_, hbelow⟩
  · rcases List.prefix_or_prefix_of_prefix h hrq with hpr | hrp
    · exact hpr
    · rcases hnearest p hrp h with rfl | hp
      · exact List.prefix_rfl
      · exact absurd hp hne
  · refine Nat.lt_of_le_of_ne hrq.length_le fun heq => hrne (Subtype.ext ?_)
    exact hrq.eq_of_length heq

/-- A place is above another one if and only if its address leads to that of the other one. -/
theorem above_place_iff {p q : t.NodeAddress} :
    (ofTree t source).Above (t.place p.1) (t.place q.1) ↔ p.1 <+: q.1 := by
  constructor
  · intro h
    generalize hc : t.place q.1 = c at h
    induction h generalizing q with
    | refl => rw [Tree.place_inj q.node?_eq hc]
    | tail _ hstep ih =>
      obtain ⟨r, q', hown, hr, hq'⟩ := exists_owns_of_mem_below hstep
      obtain rfl : q' = q := Subtype.ext (Tree.place_inj q'.node?_eq (hq'.trans hc.symm))
      exact (ih hr).trans hown.1
  · intro h
    -- Up from `q` to the node that holds it, which lies below `p` as well.
    induction hlen : q.1.length using Nat.strong_induction_on generalizing q with
    | _ len ih =>
      by_cases hpq : p = q
      · exact hpq ▸ .refl
      obtain ⟨r, -, hpr, hlt, hbelow⟩ := exists_owner_below source h hpq
      exact (ih _ (hlen ▸ hlt) hpr rfl).tail hbelow

/-- Two places meet: one is above the other, or a node holds different nodes above them. -/
theorem Outlines.above_or_fork {a : Arena} (hnodup : ∀ k, (a.below k).Nodup) {o : Outline}
    (h : a.Outlines o) (hk : k ∈ o.places) (hl : l ∈ o.places) :
    a.Above k l ∨ a.Above l k ∨
      ∃ m c d, c ∈ a.below m ∧ d ∈ a.below m ∧ c ≠ d ∧ a.Above c k ∧ a.Above d l := by
  induction h with
  | @intro id n parts hnode hnodes hall ih =>
    have hout := Outlines.intro hnode hnodes hall
    have hbelow := hout.below_eq
    rcases Outline.mem_places.mp hk with rfl | ⟨o, ho, hk'⟩
    · exact .inl (hout.above hl)
    rcases Outline.mem_places.mp hl with rfl | ⟨o', ho', hl'⟩
    · exact .inr (.inl (hout.above hk))
    by_cases heq : o = o'
    · exact ih o ho hk' (heq ▸ hl')
    · have hne : o.place ≠ o'.place := fun hplace =>
        heq (List.inj_on_of_nodup_map (hbelow ▸ hnodup id) ho ho' hplace)
      refine .inr (.inr ⟨id, o.place, o'.place, ?_, ?_, hne, (hall o ho).above hk',
        (hall o' ho').above hl'⟩)
      · rw [hbelow]
        exact List.mem_map_of_mem ho
      · rw [hbelow]
        exact List.mem_map_of_mem ho'

theorem above_or_fork (hk : k < (ofTree t source).size) (hl : l < (ofTree t source).size) :
    (ofTree t source).Above k l ∨ (ofTree t source).Above l k ∨
      ∃ m c d, c ∈ (ofTree t source).below m ∧ d ∈ (ofTree t source).below m ∧ c ≠ d ∧
        (ofTree t source).Above c k ∧ (ofTree t source).Above d l := by
  obtain ⟨o, ho, -, hperm⟩ := exists_outline_top t source
  exact ho.above_or_fork (nodup_below t source) (hperm.mem_iff.mpr (List.mem_range.mpr hk))
    (hperm.mem_iff.mpr (List.mem_range.mpr hl))

/-- In a laminar tree an earlier node is above a later one, or ends before it starts. -/
theorem above_or_stop_le (hl : t.Laminar) (hkl : k < l) (hsize : l < (ofTree t source).size) :
    (ofTree t source).Above k l ∨ (t.spanAt k).stop ≤ (t.spanAt l).start := by
  rcases above_or_fork (Nat.lt_trans hkl hsize) hsize with habove | habove | hfork
  · exact .inl habove
  · exact absurd (habove.le hl.nested) (by omega)
  · obtain ⟨m, c, d, hc, hd, hne, hck, hdl⟩ := hfork
    have hck := hck.within hl.nested
    have hdl := hdl.within hl.nested
    have horder := spanAt_ordered hkl hsize
    have hpos := start_lt_stop hl hsize
    rcases apart_of_mem_below hl hc hd hne with hapart | hapart
    · exact .inr (Nat.le_trans hck.2 (Nat.le_trans hapart hdl.1))
    · have := hck.1
      have := hdl.2
      omega

/-- Of the nodes that one node holds, only one is above a place. -/
theorem eq_of_above_of_above {m : Nat} (hc : c ∈ (ofTree t source).below m)
    (hd : d ∈ (ofTree t source).below m) (hck : (ofTree t source).Above c k)
    (hdk : (ofTree t source).Above d k) : c = d := by
  obtain ⟨p, q, hpq, rfl, rfl⟩ := exists_owns_of_mem_below hc
  obtain ⟨p', r, hpr, hp, rfl⟩ := exists_owns_of_mem_below hd
  obtain rfl : p' = p := Subtype.ext (Tree.place_inj p'.node?_eq hp)
  obtain ⟨x, rfl⟩ := Tree.NodeAddress.exists_place (hck.lt_size (lt_size_of_mem_below hc))
  rw [above_place_iff] at hck hdk
  -- Both lie on the way to `x`, so one lies on the way to the other.
  rcases List.prefix_or_prefix_of_prefix hck hdk with hqr | hrq
  · rw [(hpr.2.2 q hpq.1 hqr).resolve_left hpq.2.1.symm]
  · rw [(hpq.2.2 r hpr.1 hrq).resolve_left hpr.2.1.symm]

theorem Above.antisymm (hkl : (ofTree t source).Above k l) (hlk : (ofTree t source).Above l k)
    (hk : k < (ofTree t source).size) : k = l := by
  obtain ⟨p, rfl⟩ := Tree.NodeAddress.exists_place hk
  obtain ⟨q, rfl⟩ := Tree.NodeAddress.exists_place (hkl.lt_size hk)
  have hpq := above_place_iff.mp hkl
  have hqp := above_place_iff.mp hlk
  rw [hpq.eq_of_length_le hqp.length_le]

/-- The topmost node comes first. -/
theorem place_top (hn : t.Nested) : t.place [] = 0 := by
  obtain ⟨o, ho, hplace, hperm⟩ := exists_outline_top t []
  have hpos : 0 < (ofTree t []).size :=
    Nat.lt_of_le_of_lt (Nat.zero_le _) (Tree.place_lt [] t.node?_nil)
  have habove := ho.above (hperm.mem_iff.mpr (List.mem_range.mpr hpos))
  exact Nat.le_zero.mp (hplace ▸ habove.le hn)

/-- The outline of the first place holds every place once. -/
theorem exists_outline_root (hn : t.Nested) (source : List Char) :
    ∃ o, (ofTree t source).Outlines o ∧ (ofTree t source).root? = some o.place ∧
      o.places.Perm (List.range (ofTree t source).size) := by
  obtain ⟨o, ho, hplace, hperm⟩ := exists_outline_top t source
  have hlt := Tree.place_lt source t.node?_nil
  refine ⟨o, ho, ?_, hperm⟩
  rw [root?, if_neg (Nat.ne_of_gt (Nat.lt_of_le_of_lt (Nat.zero_le _) hlt)), hplace, place_top hn]

end Arena

end Stepflow
