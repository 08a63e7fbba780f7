import Mathlib
import Stepflow.Proofs.Boundary
import Stepflow.Proofs.Gaps

/-!
# Gaps and nodes tile the text

Between the start of a node and the start of the next one there is the gap of the next one. If the
first node has ended by then, its span is there as well, and the gap begins behind it. So no text in
front of the last node is passed over, and none belongs to two gaps.

* `Piece`: a gap, or a node that ends before the next one starts.
* `Arena.InBlock`: a byte lies between the starts of two successive nodes.
* `OpensComment`, `IsFirstComment`: where the comment in a gap begins.
* `Tree.Fits`: the spans of a tree can be cut out of a text.

Results:
* `commentOf_eq_some_iff`, `commentOf_eq_none_iff`: the comment in a gap is what follows its first
  comment mark.
* `Arena.inBlock_iff`, `Arena.exists_inBlock`: the pieces between two starts, and that every byte in
  front of a node lies between two of them.
* `Arena.pieces_tile`: every byte in front of the last node lies in one piece, and the comments are
  taken from the gaps.
-/

namespace Stepflow

open Text

/-! ## Comments -/

/-- A text that begins with a comment mark. -/
def OpensComment (cs : List Char) : Prop :=
  ['/', '/'] <+: cs ∨ ['/', '*'] <+: cs

instance (cs : List Char) : Decidable (OpensComment cs) :=
  inferInstanceAs (Decidable (_ ∨ _))

/-- The rest of a text from its first comment mark on. -/
def IsFirstComment (gap comment : List Char) : Prop :=
  comment <:+ gap ∧ OpensComment comment ∧ ∀ rest, rest <:+ gap → OpensComment rest →
    rest <:+ comment

theorem commentOf_cons (c : Char) (cs : List Char) :
    commentOf (c :: cs) = if OpensComment (c :: cs) then some (c :: cs) else commentOf cs := by
  by_cases h : OpensComment (c :: cs)
  · rw [if_pos h]
    rcases h with ⟨rest, hrest⟩ | ⟨rest, hrest⟩ <;> rw [← hrest] <;> rfl
  · rw [if_neg h, commentOf]
    · rintro rest rfl rfl
      exact h (.inl (by simp))
    · rintro rest rfl rfl
      exact h (.inr (by simp))

theorem not_opensComment_nil : ¬ OpensComment [] := by
  decide

/-- If a text opens no comment, then its ends that do are those of the text behind the first
    character. -/
theorem suffix_cons_iff_of_not_opens {c : Char} {cs rest : List Char}
    (h : ¬ OpensComment (c :: cs)) (hrest : OpensComment rest) :
    rest <:+ c :: cs ↔ rest <:+ cs := by
  rw [List.suffix_cons_iff]
  refine ⟨fun hend => hend.resolve_left ?_, .inr⟩
  rintro rfl
  exact h hrest

theorem commentOf_eq_some_iff {gap comment : List Char} :
    commentOf gap = some comment ↔ IsFirstComment gap comment := by
  induction gap with
  | nil =>
    constructor
    · intro h
      cases h
    · rintro ⟨hend, hopens, -⟩
      rw [List.suffix_nil.mp hend] at hopens
      exact absurd hopens not_opensComment_nil
  | cons c cs ih =>
    rw [commentOf_cons]
    by_cases hopens : OpensComment (c :: cs)
    · rw [if_pos hopens, Option.some.injEq]
      constructor
      · rintro rfl
        exact ⟨List.suffix_rfl, hopens, fun rest hrest _ => hrest⟩
      · rintro ⟨hend, -, hlongest⟩
        exact (hlongest _ List.suffix_rfl hopens).eq_of_length_le hend.length_le
    · have hends : ∀ rest, OpensComment rest → (rest <:+ c :: cs ↔ rest <:+ cs) :=
        fun _ => suffix_cons_iff_of_not_opens hopens
      rw [if_neg hopens, ih]
      constructor
      · rintro ⟨hend, hcomment, hlongest⟩
        refine ⟨(hends _ hcomment).mpr hend, hcomment, fun rest hrest hrest' => ?_⟩
        exact hlongest rest ((hends rest hrest').mp hrest) hrest'
      · rintro ⟨hend, hcomment, hlongest⟩
        refine ⟨(hends _ hcomment).mp hend, hcomment, fun rest hrest hrest' => ?_⟩
        exact hlongest rest ((hends rest hrest').mpr hrest) hrest'

theorem commentOf_eq_none_iff {gap : List Char} :
    commentOf gap = none ↔ ∀ rest, OpensComment rest → ¬ rest <:+ gap := by
  induction gap with
  | nil =>
    refine iff_of_true rfl fun rest hrest hend => ?_
    rw [List.suffix_nil.mp hend] at hrest
    exact not_opensComment_nil hrest
  | cons c cs ih =>
    rw [commentOf_cons]
    by_cases hopens : OpensComment (c :: cs)
    · rw [if_pos hopens]
      exact ⟨nofun, fun h => absurd List.suffix_rfl (h _ hopens)⟩
    · rw [if_neg hopens, ih]
      refine forall_congr' fun rest => imp_congr_right fun hrest => ?_
      rw [suffix_cons_iff_of_not_opens hopens hrest]

/-! ## Pieces -/

/-- The byte lies in the span. -/
def Span.Covers (s : Span) (byte : Nat) : Prop :=
  s.start ≤ byte ∧ byte < s.stop

/-- A part of the text, named by a place: the gap of the node, or the node. -/
inductive Piece where
  | gap (k : Nat)
  | node (k : Nat)
  deriving DecidableEq, Repr

/-- The place with whose start the block of a piece ends. -/
def Piece.place : Piece → Nat
  | .gap k => k
  | .node k => k + 1

namespace Arena

/-- The pieces of an arena are its gaps, and the nodes that end before the next node starts. -/
def HasPiece (a : Arena) : Piece → Prop
  | .gap k => k < a.size
  | .node k => k + 1 < a.size ∧ (a.span k).stop ≤ (a.span (k + 1)).start

/-- The range of a piece. -/
def pieceRange (a : Arena) : Piece → Span
  | .gap k => a.gapRange k
  | .node k => a.span k

/-- The byte lies between the start of the node in front of a place and that of the node there. -/
def InBlock (a : Arena) (k byte : Nat) : Prop :=
  (a.lastSpan k).start ≤ byte ∧ byte < (a.span k).start

/-- No span ends before it starts, and no node starts before the one in front of it. -/
structure Ascending (a : Arena) : Prop where
  start_le_stop : ∀ k, k < a.size → (a.span k).start ≤ (a.span k).stop
  start_le_start : ∀ k l, k ≤ l → l < a.size → (a.span k).start ≤ (a.span l).start

variable {a : Arena} {k l byte : Nat} {x y : Piece}

theorem HasPiece.place_lt (h : a.HasPiece x) : x.place < a.size := by
  cases x with
  | gap k => exact h
  | node k => exact h.1

theorem Ascending.lastSpan_start_le_stop (ha : a.Ascending) (hk : k < a.size) :
    (a.lastSpan k).start ≤ (a.lastSpan k).stop := by
  cases k with
  | zero => exact Nat.le_refl _
  | succ k => exact ha.start_le_stop k (Nat.lt_of_succ_lt hk)

theorem Ascending.lastSpan_start_le (ha : a.Ascending) (hk : k < a.size) :
    (a.lastSpan k).start ≤ (a.span k).start := by
  cases k with
  | zero => exact Nat.zero_le _
  | succ k => exact ha.start_le_start k (k + 1) (Nat.le_succ k) hk

/-- Between two starts lie the gap of the later node and, if it has ended, the earlier node. -/
theorem inBlock_iff (ha : a.Ascending) (hk : k < a.size) :
    a.InBlock k byte ↔ (a.gapRange k).Covers byte ∨
      (a.lastSpan k).stop ≤ (a.span k).start ∧ (a.lastSpan k).Covers byte := by
  have hstop := ha.lastSpan_start_le_stop hk
  simp only [InBlock, Span.Covers, gapRange, gapStart]
  split <;> omega

/-- The gap begins behind a node that has ended. -/
theorem not_covers_gapRange (hstop : (a.lastSpan k).stop ≤ (a.span k).start)
    (h : (a.lastSpan k).Covers byte) : ¬ (a.gapRange k).Covers byte := by
  simp only [Span.Covers, gapRange, gapStart] at *
  split <;> omega

/-- Every byte in front of a node lies between two starts. -/
theorem exists_inBlock (hbyte : byte < (a.span k).start) : ∃ j, j ≤ k ∧ a.InBlock j byte := by
  induction k with
  | zero => exact ⟨0, Nat.le_refl 0, Nat.zero_le byte, hbyte⟩
  | succ k ih =>
    by_cases h : byte < (a.span k).start
    · obtain ⟨j, hj, hblock⟩ := ih h
      exact ⟨j, Nat.le_succ_of_le hj, hblock⟩
    · exact ⟨k + 1, Nat.le_refl _, Nat.le_of_not_lt h, hbyte⟩

theorem InBlock.le (ha : a.Ascending) (hl : l < a.size) (hk : a.InBlock k byte)
    (h : a.InBlock l byte) : l ≤ k := by
  by_contra hkl
  -- A later block begins at or behind the start with which an earlier one ends.
  obtain ⟨l, rfl⟩ : ∃ m, l = m + 1 := ⟨l - 1, by omega⟩
  have hle := ha.start_le_start k l (by omega) (by omega)
  have hlast : (a.span l).start ≤ byte := h.1
  have := hk.2
  omega

/-- A byte of a piece lies in the block of the piece. -/
theorem HasPiece.inBlock (ha : a.Ascending) (hx : a.HasPiece x)
    (h : (a.pieceRange x).Covers byte) : a.InBlock x.place byte := by
  rw [inBlock_iff ha hx.place_lt]
  cases x with
  | gap k => exact .inl h
  | node k => exact .inr ⟨hx.2, h⟩

/-- Whatever lies in a block lies in a piece. -/
theorem InBlock.exists_piece (ha : a.Ascending) (hk : k < a.size) (h : a.InBlock k byte) :
    ∃ x, a.HasPiece x ∧ (a.pieceRange x).Covers byte := by
  rcases (inBlock_iff ha hk).mp h with hgap | ⟨hstop, hcovers⟩
  · exact ⟨.gap k, hk, hgap⟩
  · cases k with
    | zero => exact absurd hcovers.2 (Nat.not_lt_zero byte)
    | succ k => exact ⟨.node k, ⟨hk, hstop⟩, hcovers⟩

/-- No byte lies in two pieces. -/
theorem HasPiece.eq_of_covers (ha : a.Ascending) (hx : a.HasPiece x) (hy : a.HasPiece y)
    (hxb : (a.pieceRange x).Covers byte) (hyb : (a.pieceRange y).Covers byte) : x = y := by
  have hx' := hx.inBlock ha hxb
  have hy' := hy.inBlock ha hyb
  -- The byte fixes the block, and of the two pieces of a block the gap begins behind the node.
  have hplace : x.place = y.place :=
    Nat.le_antisymm (hy'.le ha hx.place_lt hx') (hx'.le ha hy.place_lt hy')
  cases x with
  | gap k =>
    cases y with
    | gap l => rw [show k = l from hplace]
    | node l =>
      obtain rfl : k = l + 1 := hplace
      exact absurd hxb (not_covers_gapRange hy.2 hyb)
  | node k =>
    cases y with
    | gap l =>
      obtain rfl : k + 1 = l := hplace
      exact absurd hyb (not_covers_gapRange hx.2 hxb)
    | node l => rw [show k = l from Nat.succ.inj hplace]

/-- The pieces cover the bytes in front of the last node. -/
theorem exists_piece_iff (ha : a.Ascending) (hsize : 0 < a.size) :
    (∃ x, a.HasPiece x ∧ (a.pieceRange x).Covers byte) ↔ byte < (a.span (a.size - 1)).start := by
  constructor
  · rintro ⟨x, hx, hcovers⟩
    have hplace := hx.place_lt
    exact Nat.lt_of_lt_of_le (hx.inBlock ha hcovers).2
      (ha.start_le_start _ _ (by omega) (by omega))
  · intro hbyte
    obtain ⟨j, hj, hblock⟩ := exists_inBlock hbyte
    exact hblock.exists_piece ha (by omega)

end Arena

/-! ## Trees that fit a text -/

/-- No span ends before it starts, and all spans start and end, counted from 0, between two
    characters of the text. -/
structure Tree.Fits (t : Tree) (source : List Char) : Prop where
  start_le_stop : ∀ p : t.NodeAddress, p.node.span.start ≤ p.node.span.stop
  start : ∀ p : t.NodeAddress, IsBoundary source (p.node.span.start - 1)
  stop : ∀ p : t.NodeAddress, IsBoundary source (p.node.span.stop - 1)

instance (t : Tree) (source : List Char) : Decidable (t.Fits source) :=
  decidable_of_iff ((∀ p : t.NodeAddress, p.node.span.start ≤ p.node.span.stop) ∧
      (∀ p : t.NodeAddress, IsBoundary source (p.node.span.start - 1)) ∧
      ∀ p : t.NodeAddress, IsBoundary source (p.node.span.stop - 1))
    ⟨fun h => ⟨h.1, h.2.1, h.2.2⟩, fun h => ⟨h.start_le_stop, h.start, h.stop⟩⟩

namespace Arena

variable {t : Tree} {source : List Char} {k : Nat}

theorem exists_span_eq (hk : k < (ofTree t source).size) :
    ∃ p : t.NodeAddress, (ofTree t source).span k = p.node.span.fromZero := by
  obtain ⟨p, rfl⟩ := Tree.NodeAddress.exists_place hk
  exact ⟨p, by rw [span_ofTree hk, Tree.spanAt_place p.node?_eq]⟩

theorem ascending_ofTree (hfit : t.Fits source) : (ofTree t source).Ascending := by
  constructor
  · intro k hk
    obtain ⟨p, hp⟩ := exists_span_eq hk
    rw [hp]
    exact Nat.sub_le_sub_right (hfit.start_le_stop p) 1
  · intro k l hkl hl
    rcases Nat.lt_or_eq_of_le hkl with hlt | rfl
    · have hordered := spanAt_ordered hlt hl
      rw [span_ofTree hl, span_ofTree (Nat.lt_trans hlt hl)]
      simp only [Span.fromZero]
      omega
    · exact Nat.le_refl _

theorem isBoundary_lastSpan (hfit : t.Fits source) (hk : k < (ofTree t source).size) :
    IsBoundary source ((ofTree t source).lastSpan k).start ∧
      IsBoundary source ((ofTree t source).lastSpan k).stop := by
  cases k with
  | zero => exact ⟨isBoundary_zero source, isBoundary_zero source⟩
  | succ k =>
    obtain ⟨p, hp⟩ := exists_span_eq (Nat.lt_of_succ_lt hk)
    rw [lastSpan, hp]
    exact ⟨hfit.start p, hfit.stop p⟩

/-- The range of a gap is a part of the text. -/
theorem exists_gap (hfit : t.Fits source) (hk : k < (ofTree t source).size) :
    ∃ before gap after, source = before ++ gap ++ after ∧
      byteLength before = ((ofTree t source).gapRange k).start ∧
      byteLength (before ++ gap) = ((ofTree t source).gapRange k).stop := by
  obtain ⟨hstart, hstop⟩ := isBoundary_lastSpan hfit hk
  have hle := (ascending_ofTree hfit).lastSpan_start_le hk
  have hend : IsBoundary source ((ofTree t source).span k).start := by
    obtain ⟨p, hp⟩ := exists_span_eq hk
    rw [hp]
    exact hfit.start p
  rw [gapRange, gapStart]
  split
  · exact hstart.exists_split hend hle
  · next hlt => exact hstop.exists_split hend (Nat.le_of_not_lt hlt)

/-- Let the spans of a tree be cut out of a text. The gaps of its arena, and the nodes in it that
    end before the next one starts, do not overlap, and together they cover the text in front of the
    last node: every byte there lies in one gap or in one such node. The comment of a node is what
    its gap says from the first comment mark on, and there is none if there is no mark. -/
theorem pieces_tile (t : Tree) (source : List Char) (hfit : t.Fits source) :
    (∀ x y, (ofTree t source).HasPiece x → (ofTree t source).HasPiece y → x ≠ y →
      ¬ ((ofTree t source).pieceRange x).Meets ((ofTree t source).pieceRange y)) ∧
    (∀ byte, (∃ x, (ofTree t source).HasPiece x ∧
        ((ofTree t source).pieceRange x).Covers byte) ↔
      byte < ((ofTree t source).span ((ofTree t source).size - 1)).start) ∧
    (∀ byte, byte < ((ofTree t source).span ((ofTree t source).size - 1)).start →
      ∃! x, (ofTree t source).HasPiece x ∧ ((ofTree t source).pieceRange x).Covers byte) ∧
    ∀ k : Fin (ofTree t source).size, ∃ n before gap after,
      (ofTree t source).node? k = some n ∧ source = before ++ gap ++ after ∧
      byteLength before = ((ofTree t source).gapRange k).start ∧
      byteLength (before ++ gap) = ((ofTree t source).gapRange k).stop ∧
      (∀ comment, n.comment = some (String.ofList comment) ↔ IsFirstComment gap comment) ∧
      (n.comment = none ↔ ∀ rest, OpensComment rest → ¬ rest <:+ gap) := by
  have ha := ascending_ofTree hfit
  have hsize : 0 < (ofTree t source).size :=
    Nat.lt_of_le_of_lt (Nat.zero_le _) (Tree.place_lt source t.node?_nil)
  have hcover : ∀ byte, _ ↔ byte < ((ofTree t source).span ((ofTree t source).size - 1)).start :=
    fun _ => exists_piece_iff ha hsize
  refine ⟨?_, hcover, ?_, ?_⟩
  · rintro x y hx hy hne ⟨byte, hxl, hxr, hyl, hyr⟩
    exact hne (hx.eq_of_covers ha hy ⟨hxl, hxr⟩ ⟨hyl, hyr⟩)
  · intro byte hbyte
    obtain ⟨x, hx, hcovers⟩ := (hcover byte).mpr hbyte
    exact ⟨x, ⟨hx, hcovers⟩, fun y hy => hy.1.eq_of_covers ha hx hy.2 hcovers⟩
  · intro k
    obtain ⟨n, hnode, hcomment, -⟩ := node?_gapRange k.isLt
    obtain ⟨before, gap, after, hsource, hstart, hstop⟩ := exists_gap hfit k.isLt
    have hslice : slice source ((ofTree t source).gapRange k).start
        ((ofTree t source).gapRange k).stop = gap := by
      rw [← hstart, ← hstop, hsource, slice_append]
    rw [hslice] at hcomment
    refine ⟨n, before, gap, after, hnode, hsource, hstart, hstop, fun comment => ?_, ?_⟩
    · rw [← commentOf_eq_some_iff, hcomment, ← Option.map_some,
        (Option.map_injective fun _ _ => String.ofList_injective).eq_iff]
    · rw [← commentOf_eq_none_iff, hcomment, Option.map_eq_none_iff]

/-- The statements of a text with a comment between them. The first one ends with a semicolon, the
    name in it does not. -/
def noted : Tree where
  kind := .module
  span := { start := 1, stop := 9 }
  fields := [(.body, .list [
    .node .expressionStatement { start := 1, stop := 3 }
      [(.children, .leaf (.identifier "a") { start := 1, stop := 2 })],
    .leaf .expressionStatement { start := 8, stop := 9 }])]

/-- The semicolon at byte 1 lies in one piece, and so does the first byte of `é` at byte 4. -/
theorem noted_tiled :
    noted.Fits "a;//é\nb".toList ∧
    (∃! x, (ofTree noted "a;//é\nb".toList).HasPiece x ∧
      ((ofTree noted "a;//é\nb".toList).pieceRange x).Covers 1) ∧
    (∃! x, (ofTree noted "a;//é\nb".toList).HasPiece x ∧
      ((ofTree noted "a;//é\nb".toList).pieceRange x).Covers 4) := by
  have hfit : noted.Fits "a;//é\nb".toList := by decide
  have hlast : ((ofTree noted "a;//é\nb".toList).span
      ((ofTree noted "a;//é\nb".toList).size - 1)).start = 7 := by cbv
  obtain ⟨-, -, hunique, -⟩ := pieces_tile noted _ hfit
  rw [hlast] at hunique
  exact ⟨hfit, hunique 1 (by decide), hunique 4 (by decide)⟩

end Arena

end Stepflow
