import Mathlib
import Stepflow.Proofs.Rank

/-!
# The order of the parts

The fields of a node, the entries of a group and the items of a list may be given in any order. If
equal spans occur only along one way down, then the arena stays the same.

* `Branch.Rearranged`: the parts of some branches are put into another order, at any depth.
* `Branch.Turn`: the addresses of one branch become those of another one, step by step on the way
  down, and lead to nodes of the same kind and span under the same fields.

Results:
* `Branch.Turn.of_parts`: the addresses of a branch are turned if those of its parts are.
* `Branch.Rearranged.exists_turn`: rearranging turns the addresses.
* `Tree.place_turned`: a node keeps its place.
* `Arena.ofTree_rearranged`: the arena stays the same.
-/

namespace Stepflow

/-! ## Rearranged branches -/

/-- What is seen of a node without looking below it. -/
def Tree.label (t : Tree) : Kind × Span :=
  (t.kind, t.span)

namespace Branch

/-- The fields of nodes, the entries of groups and the items of lists are put into another order,
    here or anywhere below. -/
inductive Rearranged : Branch → Branch → Prop
  | fields {kind : Kind} {span : Span} {fields fields' : List (Field × Branch)}
      (perm : fields.Perm fields') : Rearranged (node kind span fields) (node kind span fields')
  | entries {entries entries' : List (Field × Branch)} (perm : entries.Perm entries') :
      Rearranged (group entries) (group entries')
  | items {items items' : List Branch} (perm : items.Perm items') :
      Rearranged (list items) (list items')
  | inField {kind : Kind} {span : Span} {f : Field} {b c : Branch}
      (before after : List (Field × Branch)) (below : Rearranged b c) :
      Rearranged (node kind span (before ++ (f, b) :: after))
        (node kind span (before ++ (f, c) :: after))
  | inEntry {f : Field} {b c : Branch} (before after : List (Field × Branch))
      (below : Rearranged b c) :
      Rearranged (group (before ++ (f, b) :: after)) (group (before ++ (f, c) :: after))
  | inItem {b c : Branch} (before after : List Branch) (below : Rearranged b c) :
      Rearranged (list (before ++ b :: after)) (list (before ++ c :: after))
  | trans {b c d : Branch} (first : Rearranged b c) (second : Rearranged c d) : Rearranged b d

/-- The fields of the parts directly below; the parts of a wrapper have none. -/
def partField? (b : Branch) (i : Nat) : Option Field :=
  match b with
  | node _ _ fields => fields[i]?.map (·.1)
  | group _ => none
  | list _ => none

/-- The field with which the last step of an address leaves a node. -/
def lastField? (b : Branch) : Address → Option Field
  | [] => none
  | [i] => b.partField? i
  | i :: j :: p => b.parts[i]?.bind (·.lastField? (j :: p))

/-- Addresses of the first branch become addresses of the second one. They do so step by step, and
    lead to nodes of the same kind and span; a step from a node leads through the same field. -/
structure Turn (b c : Branch) (φ : Address ≃ Address) : Prop where
  take : ∀ p n, φ (p.take n) = (φ p).take n
  node : ∀ p, (c.node? (φ p)).map Tree.label = (b.node? p).map Tree.label
  field : ∀ p, c.lastField? (φ p) = b.lastField? p

/-- Turns the first step by `σ`, and the steps behind it as the part there asks for. -/
def turnParts (σ : Equiv.Perm Nat) (φ : Nat → Address ≃ Address) : Address ≃ Address where
  toFun
    | [] => []
    | i :: p => σ i :: φ i p
  invFun
    | [] => []
    | i :: p => σ.symm i :: (φ (σ.symm i)).symm p
  left_inv p := by cases p <;> simp
  right_inv p := by cases p <;> simp

namespace Turn

variable {b c d : Branch} {φ ψ : Address ≃ Address}

theorem refl (b : Branch) : Turn b b (Equiv.refl Address) :=
  ⟨fun _ _ => rfl, fun _ => rfl, fun _ => rfl⟩

theorem trans (hφ : Turn b c φ) (hψ : Turn c d ψ) : Turn b d (φ.trans ψ) where
  take p n := by rw [Equiv.trans_apply, hφ.take, hψ.take, Equiv.trans_apply]
  node p := by rw [Equiv.trans_apply, hψ.node, hφ.node]
  field p := by rw [Equiv.trans_apply, hψ.field, hφ.field]

theorem length_eq (h : Turn b c φ) (p : Address) : (φ p).length = p.length := by
  have hle : (φ p).length ≤ p.length := by
    have := h.take p p.length
    rw [List.take_length] at this
    rw [this, List.length_take]
    omega
  refine Nat.le_antisymm hle (Nat.le_of_not_lt fun hlt => ?_)
  -- A shorter address would be that of a shorter one already.
  have htake := h.take p (φ p).length
  rw [List.take_length] at htake
  have := congrArg List.length (φ.injective htake)
  rw [List.length_take] at this
  omega

theorem prefix_iff (h : Turn b c φ) {p q : Address} : φ p <+: φ q ↔ p <+: q := by
  rw [List.prefix_iff_eq_take, List.prefix_iff_eq_take, h.length_eq, ← h.take,
    φ.injective.eq_iff]

/-- The addresses of a branch are turned if its parts are put into another order and their own
    addresses are turned. -/
theorem of_parts {σ : Equiv.Perm Nat} {φ : Nat → Address ≃ Address}
    (htree : c.tree?.map Tree.label = b.tree?.map Tree.label)
    (hfield : ∀ i, c.partField? (σ i) = b.partField? i)
    (htake : ∀ i p n, φ i (p.take n) = (φ i p).take n)
    (hparts : ∀ i, Option.Rel (fun x y => Turn x y (φ i)) b.parts[i]? c.parts[σ i]?) :
    Turn b c (turnParts σ φ) where
  take p n := by
    cases p with
    | nil => rw [List.take_nil]; exact List.take_nil.symm
    | cons i p =>
      cases n with
      | zero => rfl
      | succ n =>
        change σ i :: φ i (p.take n) = σ i :: (φ i p).take n
        rw [htake]
  node p := by
    cases p with
    | nil => exact htree
    | cons i p =>
      change (c.node? (σ i :: φ i p)).map Tree.label = _
      rw [node?_cons, node?_cons]
      have hi := hparts i
      cases hb : b.parts[i]? <;> cases hc : c.parts[σ i]? <;> rw [hb, hc] at hi <;> cases hi
      · rfl
      · next h => exact h.node p
  field p := by
    cases p with
    | nil => rfl
    | cons i p =>
      have hi := hparts i
      have hnil : φ i [] = [] := by simpa using htake i [] 0
      cases p with
      | nil =>
        change c.lastField? (σ i :: φ i []) = _
        rw [hnil]
        exact hfield i
      | cons j p =>
        have hcons : ∃ k r, φ i (j :: p) = k :: r := by
          refine List.exists_cons_of_ne_nil fun h => ?_
          cases (φ i).injective (h.trans hnil.symm)
        obtain ⟨k, r, hr⟩ := hcons
        change c.lastField? (σ i :: φ i (j :: p)) = _
        rw [hr, lastField?, lastField?, ← hr]
        cases hb : b.parts[i]? <;> cases hc : c.parts[σ i]? <;> rw [hb, hc] at hi <;> cases hi
        · rfl
        · next h => exact h.field (j :: p)

end Turn

/-! ## Turning by rearranging -/

/-- Moves a permutation of the indices up by one. -/
def shiftIndex (σ : Equiv.Perm Nat) : Equiv.Perm Nat where
  toFun
    | 0 => 0
    | i + 1 => σ i + 1
  invFun
    | 0 => 0
    | i + 1 => σ.symm i + 1
  left_inv i := by cases i <;> simp
  right_inv i := by cases i <;> simp

/-- In lists with the same members in different orders the indices correspond. -/
theorem exists_index_perm {α : Type} {xs ys : List α} (h : xs.Perm ys) :
    ∃ σ : Equiv.Perm Nat, ∀ i, ys[σ i]? = xs[i]? := by
  induction h with
  | nil => exact ⟨Equiv.refl Nat, fun _ => rfl⟩
  | cons x _ ih =>
    obtain ⟨σ, hσ⟩ := ih
    refine ⟨shiftIndex σ, fun i => ?_⟩
    cases i with
    | zero => rfl
    | succ i => exact hσ i
  | swap x y xs =>
    refine ⟨Equiv.swap 0 1, fun i => ?_⟩
    match i with
    | 0 => rfl
    | 1 => rfl
    | i + 2 => rw [Equiv.swap_apply_of_ne_of_ne (by omega) (by omega)]; rfl
  | trans _ _ ih₁ ih₂ =>
    obtain ⟨σ, hσ⟩ := ih₁
    obtain ⟨τ, hτ⟩ := ih₂
    exact ⟨σ.trans τ, fun i => by rw [Equiv.trans_apply, hτ, hσ]⟩

theorem Turn.of_perm {b c : Branch} {σ : Equiv.Perm Nat}
    (htree : c.tree?.map Tree.label = b.tree?.map Tree.label)
    (hfield : ∀ i, c.partField? (σ i) = b.partField? i)
    (hparts : ∀ i, c.parts[σ i]? = b.parts[i]?) :
    Turn b c (turnParts σ fun _ => Equiv.refl Address) := by
  refine .of_parts htree hfield (fun _ _ _ => rfl) fun i => ?_
  rw [hparts]
  cases b.parts[i]? with
  | none => exact .none
  | some x => exact .some (Turn.refl x)

/-- Turns the addresses that lead through one of the parts. -/
theorem Turn.in_part {b c x y : Branch} {φ : Address ≃ Address} (before after : List Branch)
    (h : Turn x y φ) (htree : c.tree?.map Tree.label = b.tree?.map Tree.label)
    (hfield : ∀ i, c.partField? i = b.partField? i) (hb : b.parts = before ++ x :: after)
    (hc : c.parts = before ++ y :: after) :
    ∃ ψ, Turn b c ψ := by
  refine ⟨turnParts (Equiv.refl Nat)
    fun i => if i = before.length then φ else Equiv.refl Address, .of_parts htree hfield ?_ ?_⟩
  · intro i p n
    split
    · exact h.take p n
    · rfl
  · intro i
    rw [hb, hc, Equiv.refl_apply]
    rcases Nat.lt_trichotomy i before.length with hi | rfl | hi
    · rw [List.getElem?_append_left hi, List.getElem?_append_left hi, if_neg (by omega),
        List.getElem?_eq_getElem hi]
      exact .some (Turn.refl _)
    · rw [List.getElem?_append_right (Nat.le_refl _), List.getElem?_append_right (Nat.le_refl _),
        if_pos rfl, Nat.sub_self]
      exact .some h
    · obtain ⟨k, hk⟩ : ∃ k, i - before.length = k + 1 := ⟨i - before.length - 1, by omega⟩
      rw [List.getElem?_append_right (by omega), List.getElem?_append_right (by omega),
        if_neg (by omega), hk, List.getElem?_cons_succ, List.getElem?_cons_succ]
      cases after[k]? with
      | none => exact .none
      | some z => exact .some (Turn.refl z)

/-- Rearranging turns the addresses. -/
theorem Rearranged.exists_turn {b c : Branch} (h : b.Rearranged c) : ∃ φ, Turn b c φ := by
  induction h with
  | fields perm =>
    obtain ⟨σ, hσ⟩ := exists_index_perm perm
    refine ⟨_, .of_perm (σ := σ) rfl (fun i => ?_) fun i => ?_⟩
    · rw [partField?, partField?, hσ]
    · rw [parts, parts, List.getElem?_map, List.getElem?_map, hσ]
  | entries perm =>
    obtain ⟨σ, hσ⟩ := exists_index_perm perm
    refine ⟨_, .of_perm (σ := σ) rfl (fun _ => rfl) fun i => ?_⟩
    rw [parts, parts, List.getElem?_map, List.getElem?_map, hσ]
  | items perm =>
    obtain ⟨σ, hσ⟩ := exists_index_perm perm
    exact ⟨_, .of_perm (σ := σ) rfl (fun _ => rfl) hσ⟩
  | @inField kind span f x y before after _ ih =>
    obtain ⟨φ, hφ⟩ := ih
    refine Turn.in_part (before.map (·.2)) (after.map (·.2)) hφ rfl (fun i => ?_) ?_ ?_
    · have hnames : (before ++ (f, y) :: after).map (·.1) =
          (before ++ (f, x) :: after).map (·.1) := by simp
      rw [partField?, partField?, ← List.getElem?_map, ← List.getElem?_map, hnames]
    · simp [parts]
    · simp [parts]
  | inEntry before after _ ih =>
    obtain ⟨φ, hφ⟩ := ih
    refine Turn.in_part (before.map (·.2)) (after.map (·.2)) hφ rfl (fun _ => rfl) ?_ ?_
    · simp [parts]
    · simp [parts]
  | inItem before after _ ih =>
    obtain ⟨φ, hφ⟩ := ih
    exact Turn.in_part before after hφ rfl (fun _ => rfl) rfl rfl
  | trans _ _ ih₁ ih₂ =>
    obtain ⟨φ, hφ⟩ := ih₁
    obtain ⟨ψ, hψ⟩ := ih₂
    exact ⟨_, hφ.trans hψ⟩

theorem lastField?_append {b x : Branch} {p : Address} (h : b.part? p = some x) (i : Nat) :
    b.lastField? (p ++ [i]) = x.partField? i := by
  induction p generalizing b with
  | nil =>
    obtain rfl := Option.some.inj h
    rfl
  | cons j p ih =>
    obtain ⟨c, hc, hx⟩ := Option.bind_eq_some_iff.mp h
    obtain ⟨k, r, hr⟩ : ∃ k r, p ++ [i] = k :: r := List.exists_cons_of_ne_nil (by simp)
    rw [List.cons_append, hr, lastField?, ← hr, hc, Option.bind_some, ih hx]

end Branch

/-! ## Turned trees -/

namespace Tree

variable {t u : Tree} {φ : Address ≃ Address}

/-- A node holds a nearest node below it under the field with which the way down leaves the node. -/
theorem NodeAddress.holds_iff {p q : t.NodeAddress} {f : Field} :
    p.Holds f q ↔
      p.Owns q ∧ t.branch.lastField? (q.1.take (p.1.length + 1)) = some f := by
  have hlast : ∀ g, p.Holds g q →
      t.branch.lastField? (q.1.take (p.1.length + 1)) = some g := by
    rintro g ⟨r, hq, hr⟩
    obtain ⟨i, b, r, rfl, hi, -⟩ := fieldOf?_eq_some.mp hr
    obtain ⟨x, hx, hnode⟩ := Option.bind_eq_some_iff.mp p.node?_eq
    have htake : (p.1 ++ i :: r).take (p.1.length + 1) = p.1 ++ [i] := by
      rw [List.append_cons, List.take_left' (by simp)]
    rw [hq, htake, Branch.lastField?_append hx, Branch.eq_branch_of_tree? hnode]
    change p.node.fields[i]?.map (·.1) = some g
    rw [hi]
    rfl
  constructor
  · intro h
    exact ⟨owns_iff_exists_holds.mpr ⟨f, h⟩, hlast f h⟩
  · rintro ⟨hown, hf⟩
    obtain ⟨g, hg⟩ := owns_iff_exists_holds.mp hown
    obtain rfl : g = f := Option.some.inj ((hlast g hg).symm.trans hf)
    exact hg

/-- The nodes of a tree as nodes of a tree with turned addresses. -/
def turned (h : t.branch.Turn u.branch φ) : t.NodeAddress ≃ u.NodeAddress :=
  φ.subtypeEquiv fun p => by
    have hsome := congrArg Option.isSome (h.node p)
    rw [Option.isSome_map, Option.isSome_map] at hsome
    rw [node?, node?, hsome]

section Turned

variable (h : t.branch.Turn u.branch φ) {p q : t.NodeAddress}

theorem val_turned : (turned h p).1 = φ p.1 := rfl

theorem label_turned : (turned h p).node.label = p.node.label := by
  have hnode := h.node p.1
  change (u.node? (turned h p).1).map label = (t.node? p.1).map label at hnode
  rw [p.node?_eq, (turned h p).node?_eq] at hnode
  exact Option.some.inj hnode

theorem kind_turned : (turned h p).node.kind = p.node.kind :=
  congrArg Prod.fst (label_turned h)

theorem span_turned : (turned h p).node.span = p.node.span :=
  congrArg Prod.snd (label_turned h)

theorem prefix_turned_iff : (turned h p).1 <+: (turned h q).1 ↔ p.1 <+: q.1 :=
  h.prefix_iff

theorem owns_turned_iff : (turned h p).Owns (turned h q) ↔ p.Owns q := by
  rw [NodeAddress.Owns, NodeAddress.Owns, prefix_turned_iff, (turned h).surjective.forall, ne_eq,
    (turned h).injective.eq_iff]
  simp only [prefix_turned_iff, (turned h).injective.eq_iff]

theorem holds_turned_iff {f : Field} : (turned h p).Holds f (turned h q) ↔ p.Holds f q := by
  rw [NodeAddress.holds_iff, NodeAddress.holds_iff, owns_turned_iff, val_turned, val_turned,
    h.length_eq, ← h.take, h.field]

theorem precedes_turned_iff : (turned h p).Precedes (turned h q) ↔ p.Precedes q := by
  rw [NodeAddress.Precedes, NodeAddress.Precedes, span_turned, span_turned, prefix_turned_iff,
    ne_eq, (turned h).injective.eq_iff]

include h in
theorem distinct_turned (hd : t.Distinct) : u.Distinct := by
  intro p q hspan
  obtain ⟨p, rfl⟩ := (turned h).surjective p
  obtain ⟨q, rfl⟩ := (turned h).surjective q
  rw [span_turned, span_turned] at hspan
  rw [prefix_turned_iff, prefix_turned_iff]
  exact hd p q hspan

/-- Where equal spans occur only along one way down, a node keeps its place. -/
theorem place_turned (hd : t.Distinct) : u.place (turned h p).1 = t.place p.1 := by
  refine NodeAddress.place_eq_of_before (turned h).injective fun r => ?_
  obtain ⟨q, rfl⟩ := (turned h).surjective r
  rw [(distinct_turned h hd).place_lt_iff, precedes_turned_iff, ← hd.place_lt_iff]
  simp only [(turned h).injective.eq_iff, exists_eq_left]

end Turned

end Tree

/-! ## Arenas -/

namespace Arena

variable {t u : Tree} {φ : Address ≃ Address} {source : List Char}

theorem size_turned (h : t.branch.Turn u.branch φ) :
    (ofTree u source).size = (ofTree t source).size := by
  rw [size_eq_card, size_eq_card, Fintype.card_congr (Tree.turned h)]

theorem span_turned (h : t.branch.Turn u.branch φ) (hd : t.Distinct) (k : Nat) :
    (ofTree u source).span k = (ofTree t source).span k := by
  by_cases hk : k < (ofTree t source).size
  · rw [span_ofTree hk, span_ofTree (size_turned h ▸ hk)]
    obtain ⟨p, rfl⟩ := Tree.NodeAddress.exists_place hk
    rw [Tree.spanAt_place p.node?_eq, ← Tree.place_turned h hd,
      Tree.spanAt_place (Tree.turned h p).node?_eq, Tree.span_turned]
  · have hk' : ¬ k < (ofTree u source).size := size_turned h ▸ hk
    rw [span, span, node?, node?, Array.getElem?_eq_none (Nat.le_of_not_lt hk),
      Array.getElem?_eq_none (Nat.le_of_not_lt hk')]

theorem gapRange_turned (h : t.branch.Turn u.branch φ) (hd : t.Distinct) (k : Nat) :
    (ofTree u source).gapRange k = (ofTree t source).gapRange k := by
  cases k with
  | zero => simp only [gapRange, lastSpan, span_turned h hd]
  | succ k => simp only [gapRange, lastSpan, span_turned h hd]

/-- Let two nodes of a tree have the same span only if one of them lies around the other one. Then
    the fields of its nodes, the entries of its groups and the items of its lists can be put into
    any order: the arena stays the same, with all places, references, comments and
    indentations. -/
theorem ofTree_rearranged (t u : Tree) (hd : t.Distinct) (h : t.branch.Rearranged u.branch)
    (source : List Char) : ofTree u source = ofTree t source := by
  obtain ⟨φ, hφ⟩ := h.exists_turn
  have hnode : ∀ k, (ofTree u source).node? k = (ofTree t source).node? k := by
    intro k
    by_cases hk : k < (ofTree t source).size
    · obtain ⟨p, rfl⟩ := Tree.NodeAddress.exists_place hk
      refine node?_congr (Tree.place_turned hφ hd) (Tree.kind_turned hφ) (Tree.span_turned hφ) ?_ ?_
      · intro f id
        rw [(Tree.turned hφ).surjective.exists]
        simp only [Tree.holds_turned_iff, Tree.place_turned hφ hd]
      · rw [gapRange_turned hφ hd]
    · have hk' : ¬ k < (ofTree u source).size := size_turned hφ ▸ hk
      rw [node?, node?, Array.getElem?_eq_none (Nat.le_of_not_lt hk),
        Array.getElem?_eq_none (Nat.le_of_not_lt hk')]
  exact congrArg Arena.mk (Array.ext_getElem? hnode)

/-- A statement and a name in it have the same span, and the node between them reaches beyond both.
    Other spans cross, are empty, or end before they start. -/
def scattered : Tree where
  kind := .module
  span := { start := 2, stop := 7 }
  fields := [(.body, .list [
    .node .expressionStatement { start := 5, stop := 8 }
      [(.left, .node (.other "SequenceExpression") { start := 4, stop := 9 }
        [(.children, .leaf (.identifier "y") { start := 5, stop := 8 })]),
      (.right, .leaf (.identifier "x") { start := 2, stop := 3 })],
    .group [(.id, .leaf .blockStatement { start := 9, stop := 3 }),
      (.test, .leaf .breakStatement { start := 3, stop := 3 })]])]

/-- The same nodes, with the items, the fields of the statement and the entries of the group in
    another order. -/
def gathered : Tree where
  kind := .module
  span := { start := 2, stop := 7 }
  fields := [(.body, .list [
    .group [(.test, .leaf .breakStatement { start := 3, stop := 3 }),
      (.id, .leaf .blockStatement { start := 9, stop := 3 })],
    .node .expressionStatement { start := 5, stop := 8 }
      [(.right, .leaf (.identifier "x") { start := 2, stop := 3 }),
      (.left, .node (.other "SequenceExpression") { start := 4, stop := 9 }
        [(.children, .leaf (.identifier "y") { start := 5, stop := 8 })])]])]

theorem gathered_arena :
    scattered.Distinct ∧ scattered.branch.Rearranged gathered.branch ∧
    (gathered.node? [0, 1]).map (·.kind) ≠ (scattered.node? [0, 1]).map (·.kind) ∧
    ofTree gathered "ab cd ef".toList = ofTree scattered "ab cd ef".toList := by
  have hd : scattered.Distinct := by decide
  have h : scattered.branch.Rearranged gathered.branch := by
    -- The items, then the entries of the group, then the fields of the statement.
    refine .trans (.inField [] [] (.items (List.Perm.swap _ _ _))) ?_
    refine .trans (.inField [] [] (.inItem [] _ (.entries (List.Perm.swap _ _ _)))) ?_
    exact .inField [] [] (.inItem [_] [] (.fields (List.Perm.swap _ _ _)))
  exact ⟨hd, h, by decide, ofTree_rearranged scattered gathered hd h "ab cd ef".toList⟩

end Arena

end Stepflow
