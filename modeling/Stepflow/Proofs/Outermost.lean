import Mathlib
import Stepflow.Proofs.Gaps
import Stepflow.Proofs.Headers
import Stepflow.Proofs.Order
import Stepflow.Proofs.Validation

/-!
# Outermost nodes

A visitor that stops at nodes of certain kinds sees those of them that do not lie in another one.
The charts of a source are found so: a function inside a function or a method is not looked at.

* `Outline.outermost`: the nodes of an outline at which a way down first meets one of certain kinds.
* `Tree.NodeAddress.Outermost`: the node has such a kind, and no node around it has.
* `Flow.isCandidate`: the kinds of the nodes that may have a chart.
* `Flow.Named`: the comment of a node gives an identifier and a name.

Results:
* `Outline.walk_of_stops`: what a visitor that stops at certain kinds does on a whole walk.
* `Arena.mem_outermost_iff`: what is found on the way down has nothing of such a kind above it.
* `Flow.charts_eq`: the charts of an arena are those of its outermost candidates.
* `Source.extract_outermost`: the charts of a source are those of its outermost candidates with a
  name, in the order of the text, and their spans do not overlap.
-/

namespace Stepflow

/-! ## Walks that stop -/

namespace Outline

mutual

/-- The nodes at which a way down first meets one of certain kinds, in the order of a walk. -/
def outermost (stops : Kind → Bool) : Outline → List Outline
  | ⟨id, n, parts⟩ => if stops n.kind then [⟨id, n, parts⟩] else outermostAll stops parts

/-- The outermost nodes of outlines that follow each other. -/
def outermostAll (stops : Kind → Bool) : List Outline → List Outline
  | [] => []
  | o :: os => o.outermost stops ++ outermostAll stops os

end

theorem outermostAll_eq (stops : Kind → Bool) (os : List Outline) :
    outermostAll stops os = os.flatMap (outermost stops) := by
  induction os with
  | nil => rfl
  | cons o os ih => rw [outermostAll, ih, List.flatMap_cons]

mutual

/-- The outermost nodes come in the order of a walk. -/
theorem outermost_sublist (stops : Kind → Bool) :
    ∀ o : Outline, ((o.outermost stops).map (·.place)).Sublist o.places
  | ⟨id, n, parts⟩ => by
    rw [outermost, places]
    split
    · exact List.Sublist.cons_cons id (List.nil_sublist _)
    · exact List.Sublist.cons id (outermostAll_sublist stops parts)

theorem outermostAll_sublist (stops : Kind → Bool) :
    ∀ os : List Outline, ((outermostAll stops os).map (·.place)).Sublist (placesAll os)
  | [] => List.nil_sublist _
  | o :: os => by
    rw [outermostAll, placesAll, List.map_append]
    exact (outermost_sublist stops o).append (outermostAll_sublist stops os)

end

section Walk

variable {σ : Type} {v : Visitor σ} {stops : Kind → Bool} {effect : Kind → Nat → σ → σ}

mutual

/-- A visitor that changes its state only where it stops does so at the outermost nodes. -/
theorem walk_of_stops
    (h : ∀ kind id s, (v.dispatch kind id).run s =
      if stops kind then (false, effect kind id s) else (true, s)) :
    ∀ (o : Outline) (s : σ), ((o.walk v).run s).2 =
      (o.outermost stops).foldl (fun s o => effect o.node.kind o.place s) s
  | ⟨id, n, parts⟩, s => by
    rw [walk_run, h, outermost]
    by_cases hstop : stops n.kind
    · rw [if_pos hstop, if_pos hstop]
      rfl
    · rw [if_neg hstop, if_neg hstop]
      exact walkAll_of_stops h parts s

theorem walkAll_of_stops
    (h : ∀ kind id s, (v.dispatch kind id).run s =
      if stops kind then (false, effect kind id s) else (true, s)) :
    ∀ (os : List Outline) (s : σ), ((walkAll v os).run s).2 =
      (outermostAll stops os).foldl (fun s o => effect o.node.kind o.place s) s
  | [], s => by rw [walkAll_nil, outermostAll, List.foldl_nil]
  | o :: os, s => by
    rw [walkAll_cons, walkAll_of_stops h os, walk_of_stops h o, outermostAll, List.foldl_append]

end

end Walk

end Outline

/-! ## What is found on the way down -/

namespace Arena

open Outline

/-- The node at a place is of one of certain kinds. -/
def StopsAt (a : Arena) (stops : Kind → Bool) (id : Nat) : Prop :=
  ∃ n, a.node? id = some n ∧ stops n.kind

variable {a : Arena} {t : Tree} {source : List Char} {o : Outline} {stops : Kind → Bool}

theorem Outlines.stopsAt_iff (h : a.Outlines o) : a.StopsAt stops o.place ↔ stops o.node.kind := by
  rw [StopsAt, h.node?_eq]
  simp

/-- The outermost nodes are those of such a kind that have no other one above them. -/
theorem mem_outermost_iff (h : (ofTree t source).Outlines o)
    (hsize : o.place < (ofTree t source).size) (k : Nat) :
    k ∈ (o.outermost stops).map (·.place) ↔
      k ∈ o.places ∧ (ofTree t source).StopsAt stops k ∧
        ∀ j ∈ o.places, (ofTree t source).Above j k → j ≠ k →
          ¬ (ofTree t source).StopsAt stops j := by
  induction h generalizing k with
  | @intro id n parts hnode hnodes hall ih =>
    have hout := Outlines.intro hnode hnodes hall
    have hstops : (ofTree t source).StopsAt stops id ↔ stops n.kind := hout.stopsAt_iff
    rw [outermost]
    by_cases hstop : stops n.kind
    · rw [if_pos hstop, List.map_singleton, List.mem_singleton]
      constructor
      · rintro rfl
        refine ⟨place_mem_places _, hstops.mpr hstop, fun j hj hjk hne => absurd ?_ hne⟩
        exact ((hout.above hj).antisymm hjk hsize).symm
      · rintro ⟨hk, -, hfirst⟩
        by_contra hne
        exact hfirst id (place_mem_places _) (hout.above hk) (Ne.symm hne) (hstops.mpr hstop)
    · have hbelow : ∀ o ∈ parts, o.place ∈ (ofTree t source).below id := by
        intro o ho
        rw [hout.below_eq]
        exact List.mem_map_of_mem ho
      have ih := fun o ho => ih o ho (lt_size_of_mem_below (hbelow o ho))
      rw [if_neg hstop, outermostAll_eq, List.map_flatMap, List.mem_flatMap]
      constructor
      · rintro ⟨o, ho, hk⟩
        obtain ⟨hk, hstop', hfirst⟩ := (ih o ho k).mp hk
        refine ⟨mem_places.mpr (.inr ⟨o, ho, hk⟩), hstop', fun j hj hjk hne => ?_⟩
        rcases mem_places.mp hj with rfl | ⟨o', ho', hj⟩
        · exact fun hj => hstop (hstops.mp hj)
        · -- The part that holds `j` lies above `k` as well, so it is the part that holds `k`.
          have hjo := (hall o' ho').above hj
          have heq := eq_of_above_of_above (hbelow o ho) (hbelow o' ho') ((hall o ho).above hk)
            (hjo.trans hjk)
          exact hfirst j ((hall o ho).mem_places_iff.mpr (heq ▸ hjo)) hjk hne
      · rintro ⟨hk, hstop', hfirst⟩
        rcases mem_places.mp hk with rfl | ⟨o, ho, hk⟩
        · exact absurd (hstops.mp hstop') hstop
        · refine ⟨o, ho, (ih o ho k).mpr ⟨hk, hstop', fun j hj => ?_⟩⟩
          exact hfirst j (mem_places.mpr (.inr ⟨o, ho, hj⟩))

end Arena

/-- The node is of one of certain kinds, and no other node around it is. -/
def Tree.NodeAddress.Outermost {t : Tree} (stops : Kind → Bool) (p : t.NodeAddress) : Prop :=
  stops p.node.kind ∧ ∀ q : t.NodeAddress, q.1 <+: p.1 → q ≠ p → ¬ stops q.node.kind

instance {t : Tree} (stops : Kind → Bool) (p : t.NodeAddress) : Decidable (p.Outermost stops) :=
  inferInstanceAs (Decidable (_ ∧ ∀ q : t.NodeAddress, q.1 <+: p.1 → _))

namespace Arena

variable {t : Tree} {source : List Char} {stops : Kind → Bool}

theorem stopsAt_place (p : t.NodeAddress) :
    (ofTree t source).StopsAt stops (t.place p.1) ↔ stops p.node.kind := by
  obtain ⟨m, hm, hd⟩ := Tree.exists_node source p.node?_eq
  rw [StopsAt, hm, ← hd.kind]
  simp

/-- If an outline holds every place, then what is found in it are the outermost nodes of the
    tree. -/
theorem place_mem_outermost_iff {o : Outline} (h : (ofTree t source).Outlines o)
    (hall : ∀ k, k ∈ o.places ↔ k < (ofTree t source).size) (p : t.NodeAddress) :
    t.place p.1 ∈ (o.outermost stops).map (·.place) ↔ p.Outermost stops := by
  have hlt : ∀ q : t.NodeAddress, t.place q.1 ∈ o.places := fun q =>
    (hall _).mpr (Tree.place_lt source q.node?_eq)
  rw [mem_outermost_iff h ((hall _).mp o.place_mem_places), stopsAt_place]
  constructor
  · rintro ⟨-, hstop, hfirst⟩
    refine ⟨hstop, fun q hqp hne hq => ?_⟩
    refine hfirst (t.place q.1) (hlt q) (above_place_iff.mpr hqp) (fun heq => hne ?_)
      ((stopsAt_place q).mpr hq)
    exact Subtype.ext (Tree.place_inj q.node?_eq heq)
  · rintro ⟨hstop, hfirst⟩
    refine ⟨hlt p, hstop, fun j hj hjp hne hstop' => ?_⟩
    obtain ⟨q, rfl⟩ := Tree.NodeAddress.exists_place ((hall j).mp hj)
    refine hfirst q (above_place_iff.mp hjp) ?_ ((stopsAt_place q).mp hstop')
    rintro rfl
    exact hne rfl

/-- In a laminar tree the earlier one of two outermost nodes ends before the other one starts. -/
theorem stop_le_of_outermost (hl : t.Laminar) (source : List Char) {p q : t.NodeAddress}
    (hp : p.Outermost stops) (hq : q.Outermost stops) (hlt : t.place p.1 < t.place q.1) :
    p.node.span.stop ≤ q.node.span.start := by
  rcases above_or_stop_le hl hlt (Tree.place_lt source q.node?_eq) with habove | hstop
  · have hne : p ≠ q := by
      rintro rfl
      exact Nat.lt_irrefl _ hlt
    exact absurd hp.1 (hq.2 p (above_place_iff.mp habove) hne)
  · rwa [Tree.spanAt_place p.node?_eq, Tree.spanAt_place q.node?_eq] at hstop

/-- In a laminar tree the walk from the first place meets the outermost nodes of certain kinds in
    the order of the text. -/
theorem exists_outermost (hl : t.Laminar) (source : List Char) (stops : Kind → Bool) :
    ∃ (o : Outline) (ps : List t.NodeAddress), (ofTree t source).Outlines o ∧
      (ofTree t source).root? = some o.place ∧ o.places = List.range (ofTree t source).size ∧
      (o.outermost stops).map (·.place) = ps.map (fun p => t.place p.1) ∧
      (∀ p, p ∈ ps ↔ p.Outermost stops) ∧
      ps.Pairwise fun p q => p.node.span.stop ≤ q.node.span.start := by
  obtain ⟨o, ho, hroot, hrange⟩ := exists_outline_range hl source
  have hall : ∀ k, k ∈ o.places ↔ k < (ofTree t source).size := fun k => by
    rw [hrange, List.mem_range]
  have hfound : (o.outermost stops).map (·.place) ∈
      Set.range (List.map fun p : t.NodeAddress => t.place p.1) := by
    rw [Set.range_list_map]
    intro k hk
    exact Tree.NodeAddress.exists_place ((hall k).mp ((o.outermost_sublist stops).subset hk))
  obtain ⟨ps, hps⟩ := hfound
  have hmem : ∀ p, p ∈ ps ↔ p.Outermost stops := by
    intro p
    rw [← place_mem_outermost_iff ho hall, ← hps]
    refine ⟨List.mem_map_of_mem, fun h => ?_⟩
    obtain ⟨q, hq, hqp⟩ := List.mem_map.mp h
    rwa [← Subtype.ext (Tree.place_inj q.node?_eq hqp)]
  have hascending : (ps.map fun p => t.place p.1).Pairwise (· < ·) := by
    rw [hps]
    exact (hrange ▸ List.pairwise_lt_range).sublist (o.outermost_sublist stops)
  refine ⟨o, ps, ho, hroot, hrange, hps.symm, hmem, ?_⟩
  refine (List.pairwise_map.mp hascending).imp_of_mem fun hp hq hlt => ?_
  exact stop_le_of_outermost hl source ((hmem _).mp hp) ((hmem _).mp hq) hlt

end Arena

/-! ## Charts -/

namespace Flow

/-- The kinds of the nodes that may have a chart. -/
def isCandidate : Kind → Bool
  | .classMethod => true
  | .functionDeclaration => true
  | _ => false

/-- A visit adds the chart of a candidate and stops there. -/
theorem dispatch_chartVisitor (a : Arena) (source : List Char) (kind : Kind) (id : Nat)
    (s : List Chart) :
    ((chartVisitor a source).dispatch kind id).run s =
      if isCandidate kind then (false, (chart? a source id).toList ++ s) else (true, s) := by
  have hcollect : (collect a source id).run s =
      (some false, (chart? a source id).toList ++ s) := by
    rw [collect]
    cases chart? a source id <;> rfl
  cases kind
  case classMethod | functionDeclaration =>
    change StateT.run (collect a source id >>= _) s = _
    rw [StateT.run_bind, hcollect]
    rfl
  all_goals rfl

theorem foldl_toList_append {α β : Type} (f : α → Option β) (xs : List α) (s : List β) :
    xs.foldl (fun s x => (f x).toList ++ s) s = (xs.filterMap f).reverse ++ s := by
  induction xs generalizing s with
  | nil => rfl
  | cons x xs ih =>
    rw [List.foldl_cons, ih]
    cases h : f x <;> simp [h]

/-- The charts of an arena are those of its outermost candidates. -/
theorem charts_eq {a : Arena} {o : Outline} (h : a.Outlines o) (hroot : a.root? = some o.place)
    (hsize : o.places.length ≤ a.size) (source : List Char) :
    charts a source =
      ((o.outermost isCandidate).map (·.place)).filterMap (chart? a source) := by
  rw [charts, hroot]
  dsimp only
  rw [Arena.walk_eq_outline_walk h hsize, Outline.walk_of_stops (dispatch_chartVisitor a source),
    foldl_toList_append, List.append_nil, List.reverse_reverse, List.filterMap_map]
  rfl

/-- The comment of a node gives an identifier and a name, and neither is empty. -/
def Named (n : Node) : Prop :=
  ∃ id name, id ≠ "" ∧ name ≠ "" ∧
    (Comment.headers (commentText n)).lookup "id" = some id ∧
    (Comment.headers (commentText n)).lookup "name" = some name

/-- A chart has the span of its node, and there is one if the comment of the node names it. -/
theorem chart?_eq_some {a : Arena} {source : List Char} {id : Nat} {n : Node} {c : Chart}
    (hnode : a.node? id = some n) (h : chart? a source id = some c) :
    Named n ∧ c.span = (n.span.start, n.span.stop) := by
  rw [chart?, hnode, Option.bind_eq_bind, Option.bind_some] at h
  obtain ⟨identity, hidentity, h⟩ := Option.bind_eq_some_iff.mp h
  rw [Named, ← Comment.Tags.isSome_identity?_iff, hidentity, ← Option.some.inj h]
  exact ⟨rfl, rfl⟩

theorem isSome_chart?_iff {a : Arena} {id : Nat} {n : Node} (hnode : a.node? id = some n)
    (source : List Char) : (chart? a source id).isSome ↔ Named n := by
  constructor
  · intro h
    obtain ⟨c, hc⟩ := Option.isSome_iff_exists.mp h
    exact (chart?_eq_some hnode hc).1
  · intro h
    rw [Named, ← Comment.Tags.isSome_identity?_iff] at h
    obtain ⟨identity, hidentity⟩ := Option.isSome_iff_exists.mp h
    rw [chart?, hnode, Option.bind_eq_bind, Option.bind_some]
    dsimp only
    rw [hidentity]
    rfl

/-- Nothing stands in front of the first byte, so a node with a named chart starts behind it. -/
theorem Named.start_pos {t : Tree} {source : List Char} {k : Nat} {n : Node}
    (hnode : (Arena.ofTree t source).node? k = some n) (h : Named n) : 0 < n.span.start := by
  refine Nat.pos_of_ne_zero fun hzero => ?_
  have hk : k < (Arena.ofTree t source).size := (Array.getElem?_eq_some_iff.mp hnode).1
  obtain ⟨m, hm, hcomment, -⟩ := Arena.node?_gapRange hk
  obtain rfl : m = n := Option.some.inj (hm.symm.trans hnode)
  have hstop : ((Arena.ofTree t source).gapRange k).stop = 0 := by
    rw [Arena.gapRange, Arena.span, hnode]
    exact hzero
  rw [hstop, Text.slice_zero] at hcomment
  obtain ⟨id, -, -, -, hid, -⟩ := h
  rw [commentText, hcomment] at hid
  have hnone : (Comment.headers "").lookup "id" = none := by cbv
  cases hid.symm.trans hnone

end Flow

/-! ## Sources -/

namespace Source

open Text

variable {t : Tree} {text : List Char}

theorem validate_eq_ok (hn : t.Nested) (hvalid : ∀ p : t.NodeAddress, p.node.kind ≠ .invalid) :
    validate (Arena.ofTree t text) text = .ok () :=
  (validate_eq_ok_iff text hn).mpr hvalid

theorem extract_eq_ok {reader : Reader} {source : String}
    (hread : reader .standard (String.ofList (unifyLineEnds source.toList)) = .ok t)
    (hvalid : validate (Arena.ofTree t (unifyLineEnds source.toList))
      (unifyLineEnds source.toList) = .ok ()) :
    extract reader source = .ok {
      charts := Flow.charts (Arena.ofTree t (unifyLineEnds source.toList))
        (unifyLineEnds source.toList)
      text := String.ofList (unifyLineEnds source.toList) } :=
  extract_eq_ok_iff.mpr ⟨t, hread, hvalid, rfl⟩

/-- The span of a chart is that of its node, counted from 0, and the node starts behind the first
    byte. -/
theorem span_of_chart? {p : t.NodeAddress} {c : Flow.Chart}
    (h : Flow.chart? (Arena.ofTree t text) text (t.place p.1) = some c) :
    c.span = (p.node.span.start - 1, p.node.span.stop - 1) ∧ 1 < p.node.span.start := by
  obtain ⟨n, hnode, hd⟩ := Tree.exists_node text p.node?_eq
  obtain ⟨hnamed, hspan⟩ := Flow.chart?_eq_some hnode h
  have hpos := hnamed.start_pos hnode
  rw [hd.span, Span.fromZero] at hspan hpos
  exact ⟨hspan, Nat.sub_pos_iff_lt.mp hpos⟩

/-- Let a reader make a tree of a source that has no invalid node, and in which the nodes are not
    empty, lie inside the nodes that hold them and do not overlap their siblings. The charts of the
    source are then those of the functions and methods that do not lie in another function or
    method, in the order of the text. Such a node has a chart if and only if its comment gives an
    identifier and a name. The spans of the charts are not empty, and each one ends before the next
    one starts. -/
theorem extract_outermost (reader : Reader) (source : String) (t : Tree) (text : List Char)
    (htext : text = unifyLineEnds source.toList)
    (hread : reader .standard (String.ofList text) = .ok t) (hl : t.Laminar)
    (hvalid : ∀ p : t.NodeAddress, p.node.kind ≠ .invalid) :
    ∃ (ps : List t.NodeAddress) (charts : List Flow.Chart),
      extract reader source = .ok { charts := charts, text := String.ofList text } ∧
      (∀ p, p ∈ ps ↔ p.Outermost Flow.isCandidate) ∧
      ps.Pairwise (fun p q => p.node.span.stop ≤ q.node.span.start) ∧
      charts = ps.filterMap (fun p => Flow.chart? (Arena.ofTree t text) text (t.place p.1)) ∧
      (∀ p ∈ ps, ∃ n, (Arena.ofTree t text).node? (t.place p.1) = some n ∧
        ((Flow.chart? (Arena.ofTree t text) text (t.place p.1)).isSome ↔ Flow.Named n)) ∧
      charts.Pairwise (fun c d => c.span.1 < d.span.1 ∧ c.span.2 ≤ d.span.1) ∧
      ∀ c ∈ charts, c.span.1 < c.span.2 := by
  subst htext
  obtain ⟨o, ps, ho, hroot, hrange, hplaces, hmem, hpairwise⟩ :=
    Arena.exists_outermost hl (unifyLineEnds source.toList) Flow.isCandidate
  have hsize : o.places.length ≤ (Arena.ofTree t (unifyLineEnds source.toList)).size := by
    rw [hrange, List.length_range]
  have hcharts := Flow.charts_eq ho hroot hsize (unifyLineEnds source.toList)
  rw [hplaces, List.filterMap_map] at hcharts
  refine ⟨ps, _, extract_eq_ok hread (validate_eq_ok hl.nested hvalid), hmem, hpairwise, hcharts,
    ?_, ?_, ?_⟩
  · intro p _
    obtain ⟨n, hnode, -⟩ := Tree.exists_node (unifyLineEnds source.toList) p.node?_eq
    exact ⟨n, hnode, Flow.isSome_chart?_iff hnode _⟩
  · rw [hcharts, List.pairwise_filterMap]
    refine hpairwise.imp fun {p q} hpq c hc d hd => ?_
    obtain ⟨hc, -⟩ := span_of_chart? hc
    obtain ⟨hd, hpos⟩ := span_of_chart? hd
    have hnonempty := hl.nonempty p
    rw [hc, hd]
    dsimp only
    omega
  · intro c hc
    rw [hcharts, List.mem_filterMap] at hc
    obtain ⟨p, -, hc⟩ := hc
    obtain ⟨hc, hpos⟩ := span_of_chart? hc
    have hnonempty := hl.nonempty p
    rw [hc]
    dsimp only
    omega

/-- The tree of three functions, of which the second one lies in the first one. -/
def threeFunctions : Tree where
  kind := .module
  span := { start := 1, stop := 77 }
  fields := [(.body, .list [
    .node .functionDeclaration { start := 35, stop := 63 }
      [(.body, .group [(.children, .leaf .functionDeclaration { start := 48, stop := 62 })])],
    .leaf .functionDeclaration { start := 63, stop := 77 }])]

/-- The source of the three functions. Only the first one has a comment. -/
def threeFunctionsSource : String :=
  "//@codeflow id i @codeflow name n\r\nfunction f(){function g(){}}function h(){}"

/-- The function in the first one is not looked at, and the last one has no chart. -/
theorem threeFunctions_extract :
    threeFunctions.Laminar ∧ (∀ p : threeFunctions.NodeAddress, p.node.kind ≠ .invalid) ∧
    ∃ (ps : List threeFunctions.NodeAddress) (charts : List Flow.Chart),
      extract (fun _ _ => .ok threeFunctions) threeFunctionsSource =
        .ok { charts := charts
              text := String.ofList (unifyLineEnds threeFunctionsSource.toList) } ∧
      ⟨[0, 0], by decide⟩ ∈ ps ∧ ⟨[0, 0, 0, 0], by decide⟩ ∉ ps ∧ ⟨[0, 1], by decide⟩ ∈ ps ∧
      charts.map (·.span) = [(34, 62)] := by
  have hl : threeFunctions.Laminar := by decide
  have hvalid : ∀ p : threeFunctions.NodeAddress, p.node.kind ≠ .invalid := by decide
  obtain ⟨ps, charts, hextract, hmem, -⟩ := extract_outermost (fun _ _ => .ok threeFunctions)
    threeFunctionsSource threeFunctions _ rfl rfl hl hvalid
  refine ⟨hl, hvalid, ps, charts, hextract, ?_, ?_, ?_, ?_⟩
  · rw [hmem]
    decide
  · rw [hmem]
    decide
  · rw [hmem]
    decide
  · have hspans : (extract (fun _ _ => .ok threeFunctions) threeFunctionsSource).map
        (fun e => e.charts.map (·.span)) = .ok [(34, 62)] := by cbv
    rw [hextract] at hspans
    exact Except.ok.inj hspans

end Source

end Stepflow
