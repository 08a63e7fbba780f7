import Mathlib.Data.List.Nodup
import Stepflow.Tree.Basic

/-!
# Addresses

An address names a branch by the indices of the branches on the way down to it. Addresses tell the
nodes of a tree apart, also where two of them are alike.

* `Branch.part?`, `Tree.node?`: the branch, and the node, at an address.
* `Tree.fieldOf?`: the field under which a node holds a nearest node below it.
* `Branch.addresses`: the addresses of all nodes, the last branch first.

Results:
* `Tree.mem_addresses`, `Tree.nodup_addresses`: every node is listed, and listed once.
* `Tree.node?_append`: a node below a node has the longer address.
* `Tree.isSome_fieldOf?_iff`: what a node holds are the nodes below it that have no other node in
  between.
-/

namespace Stepflow

/-- The indices of the branches on the way down. -/
abbrev Address := List Nat

namespace Branch

/-- The branches directly below, under whatever field. -/
def parts : Branch → List Branch
  | node _ _ fields => fields.map (·.2)
  | group entries => entries.map (·.2)
  | list items => items

/-- The branch as a tree, if it is a node. -/
def tree? : Branch → Option Tree
  | node kind span fields => some { kind := kind, span := span, fields := fields }
  | group _ => none
  | list _ => none

/-- The branch at an address. -/
def part? (b : Branch) : Address → Option Branch
  | [] => some b
  | i :: rest => b.parts[i]?.bind (·.part? rest)

/-- The node at an address. -/
def node? (b : Branch) (p : Address) : Option Tree :=
  (b.part? p).bind tree?

/-- There is a node at the address, and only wrappers on the way to it. -/
def exposes (b : Branch) : Address → Bool
  | [] => b.tree?.isSome
  | i :: rest => b.tree?.isNone && b.parts[i]?.any (·.exposes rest)

mutual

/-- The addresses of the nodes of a branch. A node comes before those below it, and the nodes of a
    branch come before those of the branches to its left. -/
def addresses : Branch → List Address
  | node _ _ fields => [] :: entryAddresses 0 fields
  | group entries => entryAddresses 0 entries
  | list items => itemAddresses 0 items

/-- The addresses of the nodes of entries, of which the first one has the index `i`. -/
def entryAddresses (i : Nat) : List (Field × Branch) → List Address
  | [] => []
  | (_, b) :: entries => entryAddresses (i + 1) entries ++ b.addresses.map (i :: ·)

/-- The addresses of the nodes of branches, of which the first one has the index `i`. -/
def itemAddresses (i : Nat) : List Branch → List Address
  | [] => []
  | b :: items => itemAddresses (i + 1) items ++ b.addresses.map (i :: ·)

end

end Branch

namespace Tree

/-- The node at an address. -/
def node? (t : Tree) (p : Address) : Option Tree :=
  t.branch.node? p

/-- The field under which the topmost node holds the node at an address, if there is no other node
    on the way. The fields inside a wrapper do not count. -/
def fieldOf? (t : Tree) : Address → Option Field
  | [] => none
  | i :: rest => t.fields[i]?.bind fun entry => if entry.2.exposes rest then some entry.1 else none

/-- The addresses of all nodes. -/
def addresses (t : Tree) : List Address :=
  t.branch.addresses

end Tree

/-! ## Branches -/

namespace Branch

theorem sizeOf_lt_of_mem_parts {b c : Branch} (h : c ∈ b.parts) : sizeOf c < sizeOf b := by
  have entry : ∀ fields : List (Field × Branch), c ∈ fields.map (·.2) →
      sizeOf c < sizeOf fields := by
    intro fields hc
    obtain ⟨e, he, rfl⟩ := List.mem_map.mp hc
    have := List.sizeOf_lt_of_mem he
    obtain ⟨f, c⟩ := e
    simp only [Prod.mk.sizeOf_spec] at this ⊢
    omega
  cases b with
  | node kind span fields => have := entry fields h; simp; omega
  | group entries => have := entry entries h; simp; omega
  | list items =>
    have : sizeOf c < sizeOf items := List.sizeOf_lt_of_mem h
    simp
    omega

/-- What holds of a branch as soon as it holds of the branches directly below holds of all. -/
theorem parts_induction {motive : Branch → Prop}
    (step : ∀ b, (∀ c ∈ b.parts, motive c) → motive b) (b : Branch) : motive b :=
  step b fun c _ => parts_induction step c
termination_by sizeOf b
decreasing_by exact sizeOf_lt_of_mem_parts ‹_›

theorem entryAddresses_eq (i : Nat) (entries : List (Field × Branch)) :
    entryAddresses i entries = itemAddresses i (entries.map (·.2)) := by
  induction entries generalizing i with
  | nil => rfl
  | cons e entries ih =>
    obtain ⟨f, b⟩ := e
    rw [entryAddresses, ih, List.map_cons, itemAddresses]

/-- Node or wrapper, the nodes below are those of the branches directly below. -/
theorem addresses_eq (b : Branch) :
    b.addresses = b.tree?.toList.map (fun _ => []) ++ itemAddresses 0 b.parts := by
  cases b <;> simp [addresses, tree?, parts, entryAddresses_eq]

theorem mem_itemAddresses {i : Nat} {items : List Branch} {p : Address} :
    p ∈ itemAddresses i items ↔
      ∃ k b q, items[k]? = some b ∧ q ∈ b.addresses ∧ p = (i + k) :: q := by
  induction items generalizing i with
  | nil => simp [itemAddresses]
  | cons b items ih =>
    rw [itemAddresses, List.mem_append, ih, List.mem_map]
    constructor
    · rintro (⟨k, c, q, hk, hq, rfl⟩ | ⟨q, hq, rfl⟩)
      · exact ⟨k + 1, c, q, hk, hq, by congr 1; omega⟩
      · exact ⟨0, b, q, rfl, hq, rfl⟩
    · rintro ⟨_ | k, c, q, hk, hq, rfl⟩
      · obtain rfl : b = c := by simpa using hk
        exact .inr ⟨q, hq, rfl⟩
      · exact .inl ⟨k, c, q, hk, hq, by congr 1; omega⟩

theorem node?_nil (b : Branch) : b.node? [] = b.tree? := rfl

theorem node?_cons (b : Branch) (i : Nat) (p : Address) :
    b.node? (i :: p) = b.parts[i]?.bind (·.node? p) := by
  rw [node?, part?, Option.bind_assoc]
  rfl

/-- The listed addresses are those of nodes. -/
theorem mem_addresses {b : Branch} {p : Address} : p ∈ b.addresses ↔ (b.node? p).isSome := by
  induction b using parts_induction generalizing p with
  | step b ih =>
    rw [addresses_eq, List.mem_append, mem_itemAddresses]
    cases p with
    | nil => cases h : b.tree? <;> simp [node?_nil, h]
    | cons i p =>
      rw [node?_cons]
      cases hi : b.parts[i]? with
      | none => cases b.tree? <;> simp [hi]
      | some c =>
        have := ih c (List.mem_of_getElem? hi) (p := p)
        cases b.tree? <;> simp [hi, this]

theorem nodup_itemAddresses {i : Nat} {items : List Branch}
    (h : ∀ b ∈ items, b.addresses.Nodup) : (itemAddresses i items).Nodup := by
  induction items generalizing i with
  | nil => simp [itemAddresses]
  | cons b items ih =>
    rw [itemAddresses, List.nodup_append]
    refine ⟨ih fun c hc => h c (List.mem_cons_of_mem b hc), ?_, ?_⟩
    · exact (h b List.mem_cons_self).map fun p q hpq => (List.cons.inj hpq).2
    · intro p hp q hq
      obtain ⟨k, c, p, hk, hp, rfl⟩ := mem_itemAddresses.mp hp
      obtain ⟨q, hq, rfl⟩ := List.mem_map.mp hq
      simp only [ne_eq, List.cons.injEq, not_and]
      omega

/-- No address is listed twice. -/
theorem nodup_addresses (b : Branch) : b.addresses.Nodup := by
  induction b using parts_induction with
  | step b ih =>
    rw [addresses_eq, List.nodup_append]
    refine ⟨?_, nodup_itemAddresses ih, ?_⟩
    · cases b.tree? <;> simp
    · intro p hp q hq
      obtain ⟨k, c, q, -, -, rfl⟩ := mem_itemAddresses.mp hq
      obtain ⟨t, -, rfl⟩ := List.mem_map.mp hp
      simp

theorem part?_append (b : Branch) (p q : Address) :
    b.part? (p ++ q) = (b.part? p).bind (·.part? q) := by
  induction p generalizing b with
  | nil => rfl
  | cons i p ih =>
    rw [List.cons_append, part?, part?, Option.bind_assoc]
    congr 1
    funext c
    exact ih c

theorem exposes_cons {b : Branch} {i : Nat} {p : Address} :
    b.exposes (i :: p) ↔ b.tree? = none ∧ ∃ c, b.parts[i]? = some c ∧ c.exposes p := by
  rw [exposes, Bool.and_eq_true, Option.isNone_iff_eq_none]
  cases b.parts[i]? <;> simp

/-- An exposed node is one with no other node on the way. -/
theorem exposes_iff {b : Branch} {p : Address} :
    b.exposes p ↔ (b.node? p).isSome ∧ ∀ q, q <+: p → q ≠ p → b.node? q = none := by
  induction p generalizing b with
  | nil => simp [exposes, node?_nil]
  | cons i p ih =>
    rw [exposes_cons, node?_cons]
    constructor
    · rintro ⟨hb, c, hc, hp⟩
      obtain ⟨hsome, hnone⟩ := ih.mp hp
      refine ⟨by rw [hc]; exact hsome, ?_⟩
      rintro (_ | ⟨j, q⟩) hq hne
      · exact hb
      · obtain ⟨rfl, hqp⟩ := List.cons_prefix_cons.mp hq
        rw [node?_cons, hc]
        exact hnone q hqp (by simpa using hne)
    · rintro ⟨hsome, hnone⟩
      obtain ⟨n, hn⟩ := Option.isSome_iff_exists.mp hsome
      obtain ⟨c, hc, hn⟩ := Option.bind_eq_some_iff.mp hn
      refine ⟨hnone [] List.nil_prefix (by simp), c, hc, ih.mpr ⟨by rw [hn]; rfl, ?_⟩⟩
      intro q hq hne
      have := hnone (i :: q) (List.cons_prefix_cons.mpr ⟨rfl, hq⟩) (by simpa using hne)
      rwa [node?_cons, hc] at this

theorem eq_branch_of_tree? {b : Branch} {t : Tree} (h : b.tree? = some t) : b = t.branch := by
  cases b with
  | node kind span fields =>
    obtain rfl := Option.some.inj h
    rfl
  | group entries => cases h
  | list items => cases h

end Branch

/-! ## Trees -/

namespace Tree

theorem mem_addresses {t : Tree} {p : Address} : p ∈ t.addresses ↔ (t.node? p).isSome :=
  Branch.mem_addresses

theorem nodup_addresses (t : Tree) : t.addresses.Nodup :=
  t.branch.nodup_addresses

@[simp] theorem node?_nil (t : Tree) : t.node? [] = some t := rfl

/-- Below a node, addresses go on as they do in that node alone. -/
theorem node?_append {t n : Tree} {p : Address} (h : t.node? p = some n) (q : Address) :
    t.node? (p ++ q) = n.node? q := by
  obtain ⟨b, hb, hn⟩ := Option.bind_eq_some_iff.mp h
  rw [node?, Branch.node?, Branch.part?_append, hb, Option.bind_some, Branch.eq_branch_of_tree? hn]
  rfl

theorem fieldOf?_eq_some {t : Tree} {p : Address} {f : Field} :
    t.fieldOf? p = some f ↔ ∃ i b q, p = i :: q ∧ t.fields[i]? = some (f, b) ∧ b.exposes q := by
  cases p with
  | nil => simp [fieldOf?]
  | cons i q =>
    rw [fieldOf?, Option.bind_eq_some_iff]
    constructor
    · rintro ⟨⟨g, b⟩, hi, hg⟩
      split at hg
      · cases hg
        exact ⟨i, b, q, rfl, hi, ‹_›⟩
      · cases hg
    · rintro ⟨j, b, r, hp, hi, hb⟩
      obtain ⟨rfl, rfl⟩ := List.cons.inj hp
      exact ⟨(f, b), hi, by rw [if_pos hb]⟩

/-- A node holds the nodes below it that have no other node in between. -/
theorem isSome_fieldOf?_iff {t : Tree} {p : Address} :
    (t.fieldOf? p).isSome ↔
      p ≠ [] ∧ (t.node? p).isSome ∧ ∀ q, q <+: p → q ≠ [] → q ≠ p → t.node? q = none := by
  cases p with
  | nil => simp [fieldOf?]
  | cons i p =>
    have hparts : t.branch.parts[i]? = t.fields[i]?.map (·.2) := by simp [branch, Branch.parts]
    have hnode : ∀ q, t.node? (i :: q) = t.fields[i]?.bind fun e => e.2.node? q := by
      intro q
      rw [node?, Branch.node?_cons, hparts, Option.bind_map]
      rfl
    have hway : (∀ q, q <+: i :: p → q ≠ [] → q ≠ i :: p → t.node? q = none) ↔
        ∀ q, q <+: p → q ≠ p → t.node? (i :: q) = none := by
      constructor
      · intro h q hq hne
        exact h (i :: q) (List.cons_prefix_cons.mpr ⟨rfl, hq⟩) (by simp) (by simpa using hne)
      · rintro h (_ | ⟨j, q⟩) hq hnil hne
        · exact absurd rfl hnil
        · obtain ⟨rfl, hqp⟩ := List.cons_prefix_cons.mp hq
          exact h q hqp (by simpa using hne)
    rw [hway, fieldOf?]
    simp only [hnode]
    cases t.fields[i]? with
    | none => simp
    | some e =>
      simp only [Option.bind_some, ne_eq, reduceCtorEq, not_false_eq_true, true_and]
      rw [← Branch.exposes_iff]
      split <;> simp_all

/-- What a node holds under a field is a node. -/
theorem isSome_node?_of_fieldOf? {t : Tree} {p : Address} {f : Field}
    (h : t.fieldOf? p = some f) : (t.node? p).isSome := by
  obtain ⟨i, b, q, rfl, hi, hb⟩ := fieldOf?_eq_some.mp h
  have hparts : t.branch.parts[i]? = some b := by simp [branch, Branch.parts, hi]
  rw [node?, Branch.node?_cons, hparts]
  exact (Branch.exposes_iff.mp hb).1

end Tree

end Stepflow
