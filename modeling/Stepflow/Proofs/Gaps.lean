import Mathlib
import Stepflow.Proofs.Nesting

/-!
# Gaps between nodes

The gap of a node begins at the node before it in the sequence. That node may lie deep inside an
earlier sibling, and then the rest of the sibling belongs to the gap.

* `Span.Meets`: two ranges have a byte in common.
* `Arena.gapRange`: the range that the comment and the indentation of a node are taken from.
* `Arena.ReachesBack`: the gap of a node lies partly inside a node that has ended.
* `Arena.HasLaterEnd`: a sibling before a node ends later than the node in front of it.

Results:
* `Arena.node?_gapRange`: nothing but that range decides what the gap says.
* `Arena.within_or_stop_le`, `Arena.exists_fork_of_stop_le`: how the nodes of a laminar tree lie to
  each other.
* `Arena.gapRange_reaches_back_iff`: a gap reaches into an earlier node if and only if a sibling
  before it ends later than the node in front of it.
-/

namespace Stepflow

/-- Some byte lies in both ranges. -/
def Span.Meets (x y : Span) : Prop :=
  ∃ byte, x.start ≤ byte ∧ byte < x.stop ∧ y.start ≤ byte ∧ byte < y.stop

theorem Span.meets_iff {x y : Span} :
    x.Meets y ↔ x.start < x.stop ∧ y.start < y.stop ∧ x.start < y.stop ∧ y.start < x.stop := by
  constructor
  · rintro ⟨byte, hx, hx', hy, hy'⟩
    omega
  · rintro ⟨hx, hy, hxy, hyx⟩
    exact ⟨max x.start y.start, by omega⟩

namespace Arena

/-- The span of the node at a place. -/
def span (a : Arena) (k : Nat) : Span :=
  ((a.node? k).map (·.span)).getD ⟨0, 0⟩

/-- The span of the node in front of a place; the first place has nothing in front of it. -/
def lastSpan (a : Arena) : Nat → Span
  | 0 => ⟨0, 0⟩
  | k + 1 => a.span k

/-- The range of the gap of a node. -/
def gapRange (a : Arena) (k : Nat) : Span where
  start := gapStart (a.lastSpan k) (a.span k)
  stop := (a.span k).start

theorem gapRange_start_of_lt {a : Arena} {k : Nat}
    (h : (a.span (k + 1)).start < (a.span k).stop) :
    (a.gapRange (k + 1)).start = (a.span k).start :=
  if_pos h

theorem gapRange_start_of_le {a : Arena} {k : Nat}
    (h : (a.span k).stop ≤ (a.span (k + 1)).start) :
    (a.gapRange (k + 1)).start = (a.span k).stop :=
  if_neg (Nat.not_lt.mpr h)

variable {t : Tree} {source : List Char} {j k : Nat}

theorem exists_node?_eq {a : Arena} (hk : k < a.size) : ∃ n, a.node? k = some n :=
  ⟨_, Array.getElem?_eq_getElem hk⟩

theorem span_ofTree (hk : k < (ofTree t source).size) :
    (ofTree t source).span k = (t.spanAt k).fromZero := by
  obtain ⟨n, hnode⟩ := exists_node?_eq hk
  rw [span, hnode, Option.map_some, Option.getD_some, span_eq_fromZero hnode]

theorem lastSpan_ofTree (t : Tree) (source : List Char) (k : Nat) :
    (ofTree t source).lastSpan k = spanBefore ⟨0, 0⟩ (Staging.ofTree t).arranged k := by
  cases k with
  | zero => rfl
  | succ k =>
    rw [lastSpan, span, node?_ofTree, Option.map_map]
    rfl

/-- Nothing but the range of the gap decides what the gap says. -/
theorem node?_gapRange (hk : k < (ofTree t source).size) :
    ∃ n, (ofTree t source).node? k = some n ∧
      n.comment = (commentOf (Text.slice source ((ofTree t source).gapRange k).start
        ((ofTree t source).gapRange k).stop)).map String.ofList ∧
      n.indentation = (indentationOf (Text.slice source ((ofTree t source).gapRange k).start
        ((ofTree t source).gapRange k).stop)).map String.ofList := by
  obtain ⟨n, hnode⟩ := exists_node?_eq hk
  have hspan : (ofTree t source).span k = n.span := by rw [span, hnode]; rfl
  refine ⟨n, hnode, ?_⟩
  rw [node?_ofTree, Option.map_eq_some_iff] at hnode
  obtain ⟨m, -, rfl⟩ := hnode
  rw [gapRange, hspan, lastSpan_ofTree]
  exact ⟨rfl, rfl⟩

/-! ## Laminar trees -/

/-- A later node lies inside an earlier one, or behind it. -/
theorem within_or_stop_le (hl : t.Laminar) (hjk : j < k) (hk : k < (ofTree t source).size) :
    (t.spanAt k).Within (t.spanAt j) ∨ (t.spanAt j).stop ≤ (t.spanAt k).start :=
  (above_or_stop_le hl hjk hk).imp_left fun habove => habove.within hl.nested

/-- If one node ends before another one starts, then there are siblings around them of which the
    same is true. -/
theorem exists_fork_of_stop_le (hl : t.Laminar) (hj : j < (ofTree t source).size)
    (hk : k < (ofTree t source).size) (hstop : (t.spanAt j).stop ≤ (t.spanAt k).start) :
    ∃ m c d, c ∈ (ofTree t source).below m ∧ d ∈ (ofTree t source).below m ∧
      (t.spanAt c).stop ≤ (t.spanAt d).start ∧ (ofTree t source).Above c j ∧
      (ofTree t source).Above d k := by
  have hposj := start_lt_stop hl hj
  have hposk := start_lt_stop hl hk
  rcases above_or_fork hj hk with habove | habove | hfork
  · have := (habove.within hl.nested).2
    omega
  · have := (habove.within hl.nested).1
    omega
  · obtain ⟨m, c, d, hc, hd, hne, hcj, hdk⟩ := hfork
    refine ⟨m, c, d, hc, hd, ?_, hcj, hdk⟩
    rcases apart_of_mem_below hl hc hd hne with hapart | hapart
    · exact hapart
    · have := (hcj.within hl.nested).1
      have := (hdk.within hl.nested).2
      omega

/-! ## Where a gap reaches back -/

/-- The gap of a node has a byte of some node that ends before the node starts. -/
def ReachesBack (a : Arena) (k : Nat) : Prop :=
  ∃ j, j < a.size ∧ (a.span j).stop ≤ (a.span k).start ∧ (a.gapRange k).Meets (a.span j)

/-- A sibling before a node ends later than the node in front of it. -/
def HasLaterEnd (a : Arena) (k : Nat) : Prop :=
  ∃ m c, c ∈ a.below m ∧ k ∈ a.below m ∧ c < k ∧ (a.lastSpan k).stop < (a.span c).stop

/-- A node that a gap reaches back into comes earlier in the sequence. -/
theorem ReachesBack.exists_lt (hk : k < (ofTree t source).size)
    (h : (ofTree t source).ReachesBack k) :
    ∃ j, j < k ∧ (t.spanAt j).stop ≤ (t.spanAt k).start ∧
      ((ofTree t source).gapRange k).start < (t.spanAt j).stop - 1 := by
  obtain ⟨j, hj, hstop, hmeets⟩ := h
  rw [Span.meets_iff] at hmeets
  rw [span_ofTree hj] at hstop hmeets
  obtain ⟨-, hpos, hlast, hstart⟩ := hmeets
  have hgap : ((ofTree t source).gapRange k).stop = (t.spanAt k).start - 1 := by
    rw [gapRange, span_ofTree hk, Span.fromZero]
  rw [hgap] at hstart
  rw [span_ofTree hk] at hstop
  simp only [Span.fromZero] at hpos hlast hstart hstop
  exact ⟨j, lt_of_start_lt hj (by omega), by omega, hlast⟩

/-- If the node in front ends behind the start of a node, then it lies around the node, and the gap
    begins where no earlier node has ended. -/
theorem not_reachesBack_of_lt (hl : t.Laminar) (hk : k + 1 < (ofTree t source).size)
    (hlt : ((ofTree t source).span (k + 1)).start < ((ofTree t source).span k).stop) :
    ¬ (ofTree t source).ReachesBack (k + 1) := by
  intro h
  have hk' : k < (ofTree t source).size := Nat.lt_of_succ_lt hk
  obtain ⟨j, hjk, hstop, hlast⟩ := h.exists_lt hk
  rw [gapRange_start_of_lt hlt, span_ofTree hk'] at hlast
  rw [span_ofTree hk, span_ofTree hk'] at hlt
  simp only [Span.fromZero] at hlt hlast
  -- The node `j` has ended and the one in front has not, so `j` is neither around it nor the same.
  rcases Nat.lt_or_eq_of_le (Nat.le_of_lt_succ hjk) with hjk | rfl
  · rcases within_or_stop_le hl hjk hk' with hwithin | hle
    · have := hwithin.2
      omega
    · omega
  · omega

theorem reachesBack_of_hasLaterEnd (hl : t.Laminar) (hk : k < (ofTree t source).size)
    (h : (ofTree t source).HasLaterEnd k) : (ofTree t source).ReachesBack k := by
  obtain ⟨m, c, hc, hkm, hck, hlast⟩ := h
  obtain ⟨k, rfl⟩ : ∃ l, k = l + 1 := ⟨k - 1, by omega⟩
  have hk' : k < (ofTree t source).size := Nat.lt_of_succ_lt hk
  have hc' := lt_size_of_mem_below hc
  have hstop := stop_le_of_siblings hl hc hkm hck
  have hpos := start_lt_stop hl hk'
  have hstart : (t.spanAt c).start ≤ (t.spanAt k).start := by
    rcases Nat.lt_or_eq_of_le (Nat.le_of_lt_succ hck) with hlt | rfl
    · have := spanAt_ordered hlt hk'
      omega
    · exact Nat.le_refl _
  have hle : ((ofTree t source).span k).stop ≤ ((ofTree t source).span (k + 1)).start := by
    rw [lastSpan, span_ofTree hc'] at hlast
    rw [span_ofTree hk]
    simp only [Span.fromZero] at hlast ⊢
    omega
  refine ⟨c, hc', ?_, Span.meets_iff.mpr ?_⟩
  · rw [span_ofTree hc', span_ofTree hk]
    simp only [Span.fromZero]
    omega
  · rw [gapRange_start_of_le hle, gapRange]
    rw [lastSpan] at hlast
    rw [span_ofTree hc', span_ofTree hk'] at hlast ⊢
    rw [span_ofTree hk]
    simp only [Span.fromZero] at hlast ⊢
    omega

theorem hasLaterEnd_of_reachesBack (hl : t.Laminar) (hk : k < (ofTree t source).size)
    (h : (ofTree t source).ReachesBack k) : (ofTree t source).HasLaterEnd k := by
  obtain ⟨j, hjk, hstop, hlast⟩ := h.exists_lt hk
  obtain ⟨k, rfl⟩ : ∃ l, k = l + 1 := ⟨k - 1, by omega⟩
  have hk' : k < (ofTree t source).size := Nat.lt_of_succ_lt hk
  have hle := Nat.le_of_not_lt fun hlt => not_reachesBack_of_lt hl hk hlt h
  rw [gapRange_start_of_le hle, span_ofTree hk'] at hlast
  obtain ⟨m, c, d, hc, hd, hcd, hcj, hdk⟩ :=
    exists_fork_of_stop_le hl (Nat.lt_trans hjk hk) hk hstop
  have hj := (hcj.within hl.nested).2
  have hc' := lt_size_of_mem_below hc
  have hd' := lt_size_of_mem_below hd
  simp only [Span.fromZero] at hlast
  have hpos := start_lt_stop hl hk'
  -- The fork is right above `k + 1`: whatever holds `k + 1` there starts behind the node in front.
  have hkd : k < d := lt_of_start_lt hk' (by omega)
  obtain rfl : d = k + 1 := Nat.le_antisymm (hdk.le hl.nested) hkd
  refine ⟨m, c, hc, hd, lt_of_start_lt hc' ?_, ?_⟩
  · have := start_lt_stop hl hc'
    omega
  · rw [lastSpan, span_ofTree hk', span_ofTree hc']
    simp only [Span.fromZero]
    omega

/-- In a tree whose nodes are not empty, lie inside the nodes that hold them and do not overlap
    their siblings, the comment and the indentation of a node are taken from the range of its gap.
    That range reaches back into a node that ends before the node starts if and only if a sibling
    before the node ends later than the node in front of it does. -/
theorem gapRange_reaches_back_iff (t : Tree) (hl : t.Laminar) (source : List Char)
    (k : Fin (ofTree t source).size) :
    (∃ n, (ofTree t source).node? k = some n ∧
      n.comment = (commentOf (Text.slice source ((ofTree t source).gapRange k).start
        ((ofTree t source).gapRange k).stop)).map String.ofList ∧
      n.indentation = (indentationOf (Text.slice source ((ofTree t source).gapRange k).start
        ((ofTree t source).gapRange k).stop)).map String.ofList) ∧
    ((ofTree t source).ReachesBack k ↔ (ofTree t source).HasLaterEnd k) :=
  ⟨node?_gapRange k.isLt, hasLaterEnd_of_reachesBack hl k.isLt,
    reachesBack_of_hasLaterEnd hl k.isLt⟩

/-- The statements of `f(a/*c*/);g();`, and the argument of the first one. -/
def twoCalls : Tree where
  kind := .module
  span := { start := 1, stop := 15 }
  fields := [(.body, .list [
    .node .expressionStatement { start := 1, stop := 11 }
      [(.children, .leaf (.identifier "a") { start := 3, stop := 4 })],
    .leaf .expressionStatement { start := 11, stop := 15 }])]

/-- The argument of the first call is in front of the second call, and the first call ends later. -/
theorem twoCalls_gap :
    twoCalls.Laminar ∧ (ofTree twoCalls "f(a/*c*/);g();".toList).HasLaterEnd 3 ∧
      (ofTree twoCalls "f(a/*c*/);g();".toList).ReachesBack 3 := by
  have hl : twoCalls.Laminar := by decide
  have hsize : 3 < (ofTree twoCalls "f(a/*c*/);g();".toList).size := by cbv
  have hbelow : (ofTree twoCalls "f(a/*c*/);g();".toList).below 0 = [1, 3] := by cbv
  have hend : (ofTree twoCalls "f(a/*c*/);g();".toList).HasLaterEnd 3 := by
    refine ⟨0, 1, ?_, ?_, by decide, by cbv⟩ <;> rw [hbelow] <;> decide
  exact ⟨hl, hend, (gapRange_reaches_back_iff twoCalls hl _ ⟨3, hsize⟩).2.mpr hend⟩

/-- The first call ends where the second one starts. But the gap of the second call begins behind
    the argument of the first one, and the comment there becomes that of the second call. -/
theorem twoCalls_comment_misplaced :
    twoCalls.Laminar ∧ ∃ first second,
      (ofTree twoCalls "f(a/*c*/);g();".toList).node? 1 = some first ∧
      (ofTree twoCalls "f(a/*c*/);g();".toList).node? 3 = some second ∧
      first.span.stop ≤ second.span.start ∧
      ((ofTree twoCalls "f(a/*c*/);g();".toList).gapRange 3).Meets first.span ∧
      second.comment = some "/*c*/);" := by
  have hfirst : (ofTree twoCalls "f(a/*c*/);g();".toList).node? 1 =
      some ⟨.expressionStatement, ⟨0, 10⟩, [2], [(.children, 2)], none, none⟩ := by cbv
  have hsecond : (ofTree twoCalls "f(a/*c*/);g();".toList).node? 3 =
      some ⟨.expressionStatement, ⟨10, 14⟩, [], [], some "/*c*/);", none⟩ := by cbv
  have hrange : (ofTree twoCalls "f(a/*c*/);g();".toList).gapRange 3 = ⟨3, 10⟩ := by cbv
  refine ⟨by decide, _, _, hfirst, hsecond, Nat.le_refl _, ?_, rfl⟩
  rw [hrange]
  exact ⟨3, by decide⟩

end Arena

end Stepflow
