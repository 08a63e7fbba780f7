import Mathlib
import Stepflow.Proofs.Locality
import Stepflow.Proofs.Outermost
import Stepflow.Proofs.Rank

/-!
# Code that is added at the end

A text can go on behind its end, and its tree with it. The nodes that were there keep their places,
and all but the topmost one keep their spans, references, comments and indentations. So the charts
that were there stay, and new ones come behind them.

* `Tree.extended`: a tree with further entries and a later end.
* `Tree.Behind`: all nodes of some entries start where the tree ends, or later.
* `Tree.NodeAddress.kept`: a node of the tree, in the extended tree.

Results:
* `Tree.Laminar.distinct`: in a laminar tree equal spans occur only along one way down.
* `Tree.exists_kept_iff`: the nodes that were there are those that start before the old end.
* `Tree.place_kept`: nodes keep their places.
* `Arena.node?_kept`: below the topmost node, nodes stay as they are.
* `Flow.charts_extended`: the charts of a tree come first among those of the extended tree.
-/

namespace Stepflow

open Text (byteLength slice slice? slice?_append_of_le)

namespace Tree

/-- The tree with further entries behind its own ones, and with another end. -/
def extended (t : Tree) (more : List (Field × Branch)) (stop : Nat) : Tree where
  kind := t.kind
  span := { start := t.span.start, stop := stop }
  fields := t.fields ++ more

/-- All nodes of the entries start where the tree ends, or later. -/
def Behind (t : Tree) (more : List (Field × Branch)) : Prop :=
  ∀ e ∈ more, ∀ p n, e.2.node? p = some n → t.span.stop ≤ n.span.start

instance (t : Tree) (more : List (Field × Branch)) : Decidable (t.Behind more) :=
  decidable_of_iff (∀ e ∈ more, ∀ p ∈ e.2.addresses, ∀ n ∈ e.2.node? p,
      t.span.stop ≤ n.span.start) <| by
    refine forall₂_congr fun e _ => forall_congr' fun p => ?_
    constructor
    · intro h n hn
      exact h (Branch.mem_addresses.mpr (by rw [hn]; rfl)) n hn
    · intro h _ n hn
      exact h n hn

variable {t : Tree} {more : List (Field × Branch)} {stop : Nat}

/-! ## Spans -/

/-- Every node lies inside the topmost one. -/
theorem Nested.within_top (hn : t.Nested) (p : t.NodeAddress) : p.node.span.Within t.span := by
  have habove : (Arena.ofTree t []).Above (t.place (NodeAddress.top t).1) (t.place p.1) :=
    Arena.above_place_iff.mpr List.nil_prefix
  have hwithin := habove.within hn
  rw [spanAt_place p.node?_eq, spanAt_place (NodeAddress.top t).node?_eq] at hwithin
  exact hwithin

/-- In a laminar tree two nodes have the same span only if one lies around the other one. -/
theorem Laminar.distinct (hl : t.Laminar) : t.Distinct := by
  have hlt : ∀ p q : t.NodeAddress, p.node.span = q.node.span → t.place p.1 < t.place q.1 →
      p.1 <+: q.1 := by
    intro p q hspan hpq
    rcases Arena.above_or_stop_le hl hpq (place_lt [] q.node?_eq) with habove | hstop
    · exact Arena.above_place_iff.mp habove
    · rw [spanAt_place p.node?_eq, spanAt_place q.node?_eq, hspan] at hstop
      have := hl.nonempty q
      omega
  intro p q hspan
  rcases Nat.lt_trichotomy (t.place p.1) (t.place q.1) with h | h | h
  · exact .inl (hlt p q hspan h)
  · exact .inl (by rw [place_inj p.node?_eq h])
  · exact .inr (hlt q p hspan.symm h)

/-- Every node starts before the end of the topmost one. -/
theorem Laminar.start_lt_top (hl : t.Laminar) (p : t.NodeAddress) :
    p.node.span.start < t.span.stop :=
  Nat.lt_of_lt_of_le (hl.nonempty p) (hl.nested.within_top p).2

/-! ## Nodes of the extended tree -/

theorem node?_extended_of_lt {i : Nat} (hi : i < t.fields.length) (p : Address) :
    (t.extended more stop).node? (i :: p) = t.node? (i :: p) := by
  rw [node?, node?, Branch.node?_cons, Branch.node?_cons]
  congr 1
  change ((t.fields ++ more).map (·.2))[i]? = (t.fields.map (·.2))[i]?
  rw [List.getElem?_map, List.getElem?_map, List.getElem?_append_left hi]

theorem lt_of_node?_cons {i : Nat} {p : Address} (h : (t.node? (i :: p)).isSome) :
    i < t.fields.length := by
  rw [node?, Branch.node?_cons] at h
  change ((t.fields.map (·.2))[i]?.bind (·.node? p)).isSome at h
  by_contra hi
  rw [List.getElem?_eq_none (by simpa using hi)] at h
  cases h

/-- Below the topmost node the extended tree has the same nodes at the same addresses. -/
theorem node?_extended {p : Address} (hp : p ≠ []) (h : (t.node? p).isSome) :
    (t.extended more stop).node? p = t.node? p := by
  obtain ⟨i, p, rfl⟩ := List.exists_cons_of_ne_nil hp
  exact node?_extended_of_lt (lt_of_node?_cons h) p

namespace NodeAddress

/-- A node of the tree, in the extended tree. -/
def kept (more : List (Field × Branch)) (stop : Nat) (p : t.NodeAddress) :
    (t.extended more stop).NodeAddress :=
  ⟨p.1, by
    by_cases hp : p.1 = []
    · rw [hp]
      rfl
    · rw [node?_extended hp p.2]
      exact p.2⟩

theorem kept_injective : Function.Injective (kept more stop : t.NodeAddress → _) := by
  intro p q h
  exact Subtype.ext (Subtype.ext_iff.mp h :)

theorem node_kept {p : t.NodeAddress} (hp : p ≠ .top t) : (p.kept more stop).node = p.node := by
  have hnil : p.1 ≠ [] := fun h => hp (Subtype.ext h)
  have h := (p.kept more stop).node?_eq
  change (t.extended more stop).node? p.1 = _ at h
  rw [node?_extended hnil p.2, p.node?_eq] at h
  exact (Option.some.inj h).symm

theorem kind_kept (p : t.NodeAddress) : (p.kept more stop).node.kind = p.node.kind := by
  by_cases hp : p = .top t
  · rw [hp]
    rfl
  · rw [node_kept hp]

theorem start_kept (p : t.NodeAddress) :
    (p.kept more stop).node.span.start = p.node.span.start := by
  by_cases hp : p = .top t
  · rw [hp]
    rfl
  · rw [node_kept hp]

/-- What a node below the topmost one holds, it holds in the extended tree, and nothing else. -/
theorem holds_kept_iff {p : t.NodeAddress} (hp : p ≠ .top t) {f : Field}
    {r : (t.extended more stop).NodeAddress} :
    (p.kept more stop).Holds f r ↔ ∃ q : t.NodeAddress, q.kept more stop = r ∧ p.Holds f q := by
  constructor
  · rintro ⟨s, hr, hs⟩
    rw [node_kept hp] at hs
    have hsome : (t.node? (p.1 ++ s)).isSome := by
      rw [node?_append p.node?_eq]
      exact isSome_node?_of_fieldOf? hs
    exact ⟨⟨p.1 ++ s, hsome⟩, Subtype.ext hr.symm, s, rfl, hs⟩
  · rintro ⟨q, rfl, s, hq, hs⟩
    exact ⟨s, hq, by rwa [node_kept hp]⟩

end NodeAddress

/-- The nodes that were there are those that start before the old end. -/
theorem exists_kept_iff (hl : t.Laminar) (hbehind : t.Behind more)
    {r : (t.extended more stop).NodeAddress} :
    (∃ p : t.NodeAddress, p.kept more stop = r) ↔ r.node.span.start < t.span.stop := by
  constructor
  · rintro ⟨p, rfl⟩
    rw [NodeAddress.start_kept]
    exact hl.start_lt_top p
  · intro hlt
    obtain ⟨r, hr⟩ := r
    cases r with
    | nil => exact ⟨.top t, rfl⟩
    | cons i r =>
      by_cases hi : i < t.fields.length
      · exact ⟨⟨i :: r, by rwa [node?_extended_of_lt hi] at hr⟩, rfl⟩
      · have hnode := NodeAddress.node?_eq (⟨i :: r, hr⟩ : (t.extended more stop).NodeAddress)
        rw [node?, Branch.node?_cons] at hnode
        change ((t.fields ++ more).map (·.2))[i]?.bind _ = _ at hnode
        rw [List.getElem?_map, List.getElem?_append_right (Nat.le_of_not_lt hi)] at hnode
        obtain ⟨b, hb, hnode⟩ := Option.bind_eq_some_iff.mp hnode
        obtain ⟨e, he, rfl⟩ := Option.map_eq_some_iff.mp hb
        have := hbehind e (List.mem_of_getElem? he) r _ hnode
        omega

/-! ## Places -/

theorem Nested.place_pos_iff (hn : t.Nested) {p : t.NodeAddress} :
    0 < t.place p.1 ↔ p ≠ .top t := by
  rw [Nat.pos_iff_ne_zero, ← Arena.place_top hn, not_iff_not]
  constructor
  · intro h
    exact Subtype.ext (place_inj p.node?_eq h)
  · rintro rfl
    rfl

section Places

open NodeAddress

variable (hl : t.Laminar) (hl' : (t.extended more stop).Laminar)
include hl hl'

theorem place_kept_lt_iff (p q : t.NodeAddress) :
    (t.extended more stop).place (q.kept more stop).1 <
        (t.extended more stop).place (p.kept more stop).1 ↔
      t.place q.1 < t.place p.1 := by
  have htop : t.place (NodeAddress.top t).1 = 0 := Arena.place_top hl.nested
  have htop' : (t.extended more stop).place ((NodeAddress.top t).kept more stop).1 = 0 :=
    Arena.place_top hl'.nested
  have hinj : ∀ p q : t.NodeAddress, p.kept more stop = q.kept more stop ↔ p = q := fun _ _ =>
    kept_injective.eq_iff
  -- The end of the topmost node has changed, but it comes first in both trees.
  by_cases hq : q = .top t
  · rw [hq, htop, htop', hl.nested.place_pos_iff, hl'.nested.place_pos_iff, ne_eq, ne_eq,
      ← hinj p (.top t)]
    rfl
  by_cases hp : p = .top t
  · rw [hp, htop, htop']
    exact iff_of_false (Nat.not_lt_zero _) (Nat.not_lt_zero _)
  rw [hl.distinct.place_lt_iff, hl'.distinct.place_lt_iff, Precedes, Precedes, node_kept hp,
    node_kept hq, ne_eq, hinj]
  rfl

/-- Nodes keep their places. -/
theorem place_kept (hbehind : t.Behind more) (p : t.NodeAddress) :
    (t.extended more stop).place (p.kept more stop).1 = t.place p.1 := by
  refine place_eq_of_before kept_injective fun r => ?_
  constructor
  · intro hlt
    have hstart : r.node.span.start < t.span.stop := by
      have hp : (p.kept more stop).node.span.start < t.span.stop := by
        rw [start_kept]
        exact hl.start_lt_top p
      have horder := Arena.spanAt_ordered hlt (place_lt [] (p.kept more stop).node?_eq)
      rw [spanAt_place r.node?_eq, spanAt_place (p.kept more stop).node?_eq] at horder
      omega
    obtain ⟨q, rfl⟩ := (exists_kept_iff hl hbehind).mpr hstart
    exact ⟨q, rfl, (place_kept_lt_iff hl hl' p q).mp hlt⟩
  · rintro ⟨q, rfl, hlt⟩
    exact (place_kept_lt_iff hl hl' p q).mpr hlt

end Places

end Tree

/-! ## Arenas -/

namespace Arena

variable {t : Tree} {more : List (Field × Branch)} {stop : Nat} {text suffix : List Char}

theorem span_place (p : t.NodeAddress) :
    (ofTree t text).span (t.place p.1) = p.node.span.fromZero := by
  rw [span_ofTree (Tree.place_lt text p.node?_eq), Tree.spanAt_place p.node?_eq]

section Kept

variable (hl : t.Laminar) (hl' : (t.extended more stop).Laminar) (hbehind : t.Behind more)
include hl hl' hbehind

theorem span_kept (p : t.NodeAddress) :
    (ofTree (t.extended more stop) (text ++ suffix)).span (t.place p.1) =
      (p.kept more stop).node.span.fromZero := by
  rw [← Tree.place_kept hl hl' hbehind p, span_place]

/-- The gap of a node below the topmost one keeps its range. -/
theorem gapRange_kept (hstop : t.span.stop ≤ stop) {p : t.NodeAddress} (hp : p ≠ .top t) :
    (ofTree (t.extended more stop) (text ++ suffix)).gapRange (t.place p.1) =
      (ofTree t text).gapRange (t.place p.1) := by
  obtain ⟨k, hk⟩ : ∃ k, t.place p.1 = k + 1 :=
    Nat.exists_eq_add_of_lt (hl.nested.place_pos_iff.mpr hp) |>.imp fun k hk => by omega
  have hlt : k < (ofTree t text).size := by
    have := Tree.place_lt text p.node?_eq
    omega
  obtain ⟨q, rfl⟩ := Tree.NodeAddress.exists_place hlt
  rw [gapRange, gapRange, span_kept hl hl' hbehind, span_place, Tree.NodeAddress.node_kept hp, hk,
    lastSpan, lastSpan, span_kept hl hl' hbehind, span_place]
  by_cases hq : q = .top t
  · -- The topmost node lies around this one, whether it ends earlier or later.
    obtain ⟨hstart, -⟩ := hl.nested.within_top p
    have hbefore := hl.start_lt_top p
    subst hq
    congr 1
    change (if p.node.span.start - 1 < stop - 1 then t.span.start - 1 else stop - 1) =
      if p.node.span.start - 1 < t.span.stop - 1 then t.span.start - 1 else t.span.stop - 1
    split <;> split <;> omega
  · rw [Tree.NodeAddress.node_kept hq]

/-- Below the topmost node, nodes stay as they are. -/
theorem node?_kept (hfits : t.span.stop ≤ byteLength text + 1) (hstop : t.span.stop ≤ stop)
    {p : t.NodeAddress} (hp : p ≠ .top t) :
    (ofTree (t.extended more stop) (text ++ suffix)).node? (t.place p.1) =
      (ofTree t text).node? (t.place p.1) := by
  refine node?_congr (Tree.place_kept hl hl' hbehind p) (Tree.NodeAddress.kind_kept p)
    (by rw [Tree.NodeAddress.node_kept hp]) ?_ ?_
  · intro f id
    simp only [Tree.NodeAddress.holds_kept_iff hp]
    constructor
    · rintro ⟨_, ⟨q, rfl, hq⟩, rfl⟩
      exact ⟨q, hq, (Tree.place_kept hl hl' hbehind q).symm⟩
    · rintro ⟨q, hq, rfl⟩
      exact ⟨_, ⟨q, rfl, hq⟩, Tree.place_kept hl hl' hbehind q⟩
  · rw [gapRange_kept hl hl' hbehind hstop hp, slice, slice, slice?_append_of_le]
    have hbefore := hl.start_lt_top p
    rw [gapRange, span_place]
    change p.node.span.start - 1 ≤ byteLength text
    omega

/-- What lies at and below a node other than the topmost one is common to both arenas. -/
theorem exists_shares (hfits : t.span.stop ≤ byteLength text + 1) (hstop : t.span.stop ≤ stop)
    {p : t.NodeAddress} (hp : p ≠ .top t) :
    ∃ o : Outline, o.place = t.place p.1 ∧
      Shares (ofTree t text) (ofTree (t.extended more stop) (text ++ suffix)) text (text ++ suffix)
        o := by
  obtain ⟨o, ho, hplace, -, hlen⟩ := exists_outline t text (Tree.place_lt text p.node?_eq)
  have hpart : ∀ k ∈ o.places, ∃ q : t.NodeAddress, q ≠ .top t ∧ t.place q.1 = k := by
    intro k hk
    have habove := ho.above hk
    rw [hplace] at habove
    obtain ⟨q, rfl⟩ :=
      Tree.NodeAddress.exists_place (habove.lt_size (Tree.place_lt text p.node?_eq))
    refine ⟨q, ?_, rfl⟩
    rintro rfl
    exact hp (Subtype.ext (List.prefix_nil.mp (above_place_iff.mp habove)))
  refine ⟨o, hplace, ho, ?_, hlen, ?_, ?_, ?_⟩
  · refine ho.of_node?_eq fun k hk => ?_
    obtain ⟨q, hq, rfl⟩ := hpart k hk
    exact node?_kept hl hl' hbehind hfits hstop hq
  · refine Nat.le_trans hlen ?_
    rw [size_eq_card, size_eq_card]
    exact Fintype.card_le_of_injective _ Tree.NodeAddress.kept_injective
  · intro k _ n hn
    obtain ⟨q, -, hd⟩ := exists_depicts hn
    exact hd.nodes
  · intro k _ l _ m n _ hn
    obtain ⟨q, -, hd⟩ := exists_depicts hn
    have hwithin := (hl.nested.within_top q).2
    refine slice?_append_of_le ?_ suffix
    rw [hd.span]
    change q.node.span.stop - 1 ≤ byteLength text
    omega

end Kept

end Arena

/-! ## Charts -/

namespace Flow

open Arena (ofTree)

variable {t : Tree} {more : List (Field × Branch)} {stop : Nat} {text : List Char}

/-- The charts of a laminar tree are those of its outermost candidates, in the order of their
    starts. -/
theorem exists_charts_eq (hl : t.Laminar) (text : List Char) :
    ∃ ps : List t.NodeAddress,
      charts (ofTree t text) text =
        ps.filterMap (fun p => chart? (ofTree t text) text (t.place p.1)) ∧
      (∀ p, p ∈ ps ↔ p.Outermost isCandidate) ∧
      ps.Pairwise fun p q => p.node.span.start < q.node.span.start := by
  obtain ⟨o, ps, ho, hroot, hrange, hplaces, hmem, hpairwise⟩ :=
    Arena.exists_outermost hl text isCandidate
  refine ⟨ps, ?_, hmem, hpairwise.imp fun {p q} hpq => Nat.lt_of_lt_of_le (hl.nonempty p) hpq⟩
  rw [charts_eq ho hroot (by rw [hrange, List.length_range]) text, hplaces, List.filterMap_map]
  rfl

/-- A node that was there is an outermost one if and only if it was. -/
theorem outermost_kept_iff (hl : t.Laminar) (hl' : (t.extended more stop).Laminar)
    (hbehind : t.Behind more) {p : t.NodeAddress} :
    (p.kept more stop).Outermost isCandidate ↔ p.Outermost isCandidate := by
  rw [Tree.NodeAddress.Outermost, Tree.NodeAddress.Outermost, Tree.NodeAddress.kind_kept]
  refine and_congr_right fun _ => ?_
  constructor
  · intro h q hqp hne
    have := h (q.kept more stop) hqp fun heq => hne (Tree.NodeAddress.kept_injective heq)
    rwa [Tree.NodeAddress.kind_kept] at this
  · intro h r hrp hne
    -- What lies around a node that was there starts no later, so it was there as well.
    have habove : (ofTree (t.extended more stop) []).Above _ _ := Arena.above_place_iff.mpr hrp
    have hwithin := (habove.within hl'.nested).1
    rw [Tree.spanAt_place r.node?_eq, Tree.spanAt_place (p.kept more stop).node?_eq,
      Tree.NodeAddress.start_kept] at hwithin
    have hbefore := hl.start_lt_top p
    obtain ⟨q, rfl⟩ := (Tree.exists_kept_iff hl hbehind).mpr (Nat.lt_of_le_of_lt hwithin hbefore)
    rw [Tree.NodeAddress.kind_kept]
    exact h q hrp fun heq => hne (by rw [heq])

/-- The outermost candidates that were there come first. -/
theorem candidates_extended (hl : t.Laminar) (hl' : (t.extended more stop).Laminar)
    (hbehind : t.Behind more) {ps : List t.NodeAddress}
    {rs : List (t.extended more stop).NodeAddress}
    (hps : ∀ p, p ∈ ps ↔ p.Outermost isCandidate)
    (hrs : ∀ r, r ∈ rs ↔ r.Outermost isCandidate)
    (hps' : ps.Pairwise fun p q => p.node.span.start < q.node.span.start)
    (hrs' : rs.Pairwise fun p q => p.node.span.start < q.node.span.start) :
    ps.map (·.kept more stop) <+: rs := by
  -- Both sides of the equation are sorted by the starts and have the same members.
  suffices ps.map (·.kept more stop) ++
      rs.filter (fun r => decide (t.span.stop ≤ r.node.span.start)) = rs from ⟨_, this⟩
  have : Std.Antisymm fun p q : (t.extended more stop).NodeAddress =>
      p.node.span.start < q.node.span.start := ⟨fun _ _ hpq hqp => absurd hpq (Nat.lt_asymm hqp)⟩
  have : Std.Irrefl fun p q : (t.extended more stop).NodeAddress =>
      p.node.span.start < q.node.span.start := ⟨fun _ => Nat.lt_irrefl _⟩
  refine List.Pairwise.eq_of_mem_iff (List.pairwise_append.mpr ⟨?_, hrs'.filter _, ?_⟩) hrs' ?_
  · refine List.pairwise_map.mpr (hps'.imp fun {p q} hpq => ?_)
    rwa [Tree.NodeAddress.start_kept, Tree.NodeAddress.start_kept]
  · intro r hr r' hr'
    obtain ⟨p, -, rfl⟩ := List.mem_map.mp hr
    have hle := of_decide_eq_true (List.mem_filter.mp hr').2
    rw [Tree.NodeAddress.start_kept]
    exact Nat.lt_of_lt_of_le (hl.start_lt_top p) hle
  · intro r
    rw [List.mem_append, List.mem_map, List.mem_filter, decide_eq_true_eq, ← Nat.not_lt,
      ← Tree.exists_kept_iff hl hbehind]
    constructor
    · rintro (⟨p, hp, rfl⟩ | ⟨hr, -⟩)
      · exact (hrs _).mpr ((outermost_kept_iff hl hl' hbehind).mpr ((hps p).mp hp))
      · exact hr
    · intro hr
      by_cases hkept : ∃ p : t.NodeAddress, p.kept more stop = r
      · obtain ⟨p, rfl⟩ := hkept
        have hp := (outermost_kept_iff hl hl' hbehind).mp ((hrs _).mp hr)
        exact .inl ⟨p, (hps p).mpr hp, rfl⟩
      · exact .inr ⟨hr, hkept⟩

/-- Let the nodes of a module not be empty, lie inside the nodes that hold them and not overlap
    their siblings, and let the module end no later than its text. Let further entries be added to
    it, with nodes of which the same is true and which all start where the module ended, or later.
    Then the charts of the longer text are those of the text, in the same order and with all that
    they say, and others behind them. -/
theorem charts_extended (t : Tree) (more : List (Field × Branch)) (stop : Nat)
    (text suffix : List Char) (hkind : t.kind = .module) (hl : t.Laminar)
    (hfits : t.span.stop ≤ byteLength text + 1) (hstop : t.span.stop ≤ stop)
    (hbehind : t.Behind more) (hl' : (t.extended more stop).Laminar) :
    charts (ofTree t text) text <+:
      charts (ofTree (t.extended more stop) (text ++ suffix)) (text ++ suffix) := by
  obtain ⟨ps, hcharts, hps, hps'⟩ := exists_charts_eq hl text
  obtain ⟨rs, hcharts', hrs, hrs'⟩ := exists_charts_eq hl' (text ++ suffix)
  have hkept : ∀ p ∈ ps, chart? (ofTree (t.extended more stop) (text ++ suffix)) (text ++ suffix)
      ((t.extended more stop).place (p.kept more stop).1) =
        chart? (ofTree t text) text (t.place p.1) := by
    intro p hp
    have htop : p ≠ .top t := by
      rintro rfl
      have hcandidate := ((hps _).mp hp).1
      rw [show (Tree.NodeAddress.top t).node.kind = .module from hkind] at hcandidate
      cases hcandidate
    obtain ⟨o, hplace, hshares⟩ := Arena.exists_shares hl hl' hbehind hfits hstop htop
    rw [Tree.place_kept hl hl' hbehind, ← hplace]
    exact chart?_shared hshares
  obtain ⟨added, rfl⟩ := candidates_extended hl hl' hbehind hps hrs hps' hrs'
  rw [hcharts', List.filterMap_append, List.filterMap_map, hcharts, ← List.filterMap_congr hkept]
  exact List.prefix_append _ _

/-- The tree of a function with a comment. -/
def oneFunction : Tree where
  kind := .module
  span := { start := 1, stop := 49 }
  fields := [(.body, .list [
    .node .functionDeclaration { start := 35, stop := 49 }
      [(.body, .leaf .blockStatement { start := 47, stop := 49 })]])]

/-- The entry of another function behind it. -/
def laterFunction : Field × Branch :=
  (.body, .list [.leaf .functionDeclaration { start := 83, stop := 97 }])

/-- The chart of the first function stays, and that of the other one comes behind it. -/
theorem laterFunction_charts :
    oneFunction.Laminar ∧ oneFunction.Behind [laterFunction] ∧
      (oneFunction.extended [laterFunction] 97).Laminar ∧
    ∃ text suffix : List Char, oneFunction.span.stop ≤ byteLength text + 1 ∧
      (charts (ofTree oneFunction text) text).map (·.name) = ["n"] ∧
      (charts (ofTree (oneFunction.extended [laterFunction] 97) (text ++ suffix))
        (text ++ suffix)).map (·.name) = ["n", "m"] ∧
      charts (ofTree oneFunction text) text <+:
        charts (ofTree (oneFunction.extended [laterFunction] 97) (text ++ suffix))
          (text ++ suffix) := by
  have hl : oneFunction.Laminar := by decide
  have hbehind : oneFunction.Behind [laterFunction] := by decide
  have hl' : (oneFunction.extended [laterFunction] 97).Laminar := by decide
  refine ⟨hl, hbehind, hl', "//@codeflow id i @codeflow name n\nfunction f(){}".toList,
    "//@codeflow id j @codeflow name m\nfunction g(){}".toList, by cbv, by cbv, by cbv, ?_⟩
  exact charts_extended oneFunction [laterFunction] 97 _ _ rfl hl (by cbv) (by decide) hbehind hl'

end Flow

end Stepflow
