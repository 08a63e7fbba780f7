import Mathlib.Data.List.Forall2
import Mathlib.Data.List.Perm.Basic
import Stepflow.Proofs.Address
import Stepflow.Proofs.Staging

/-!
# The collection of nodes

A tree is taken apart into a sequence of nodes that refer to each other by numbers. The number of a
node is its index in that sequence, and the sequence follows the addresses of the nodes.

* `Tree.number`: the number of the node at an address.
* `Staged.Describes`: a collected node agrees with a node of the tree.

Results:
* `Tree.exists_staged`: under the number of an address stands the node of that address.
* `Plain.perm_numbers_stages`: every number is that of a topmost node, or is referred to once.
* `Plain.lt_of_mem_children`: a node refers to higher numbers.
-/

namespace Stepflow

/-! ## Numbers -/

namespace Plain

theorem sizes_append (ks ls : List (Field × Plain)) : sizes (ks ++ ls) = sizes ks + sizes ls := by
  induction ks with
  | nil => simp [sizes]
  | cons k ks ih =>
    obtain ⟨f, p⟩ := k
    rw [List.cons_append, sizes, sizes, ih]
    omega

theorem numbers_append (base : Nat) (ks ls : List (Field × Plain)) :
    numbers base (ks ++ ls) = numbers base ks ++ numbers (base + sizes ks) ls := by
  induction ks generalizing base with
  | nil => simp [numbers, sizes]
  | cons k ks ih =>
    obtain ⟨f, p⟩ := k
    rw [List.cons_append, numbers, numbers, ih, sizes, Nat.add_assoc, List.cons_append]

theorem stages_append (base : Nat) (ks ls : List (Field × Plain)) :
    stages base (ks ++ ls) = stages base ks ++ stages (base + sizes ks) ls := by
  induction ks generalizing base with
  | nil => simp [stages, sizes]
  | cons k ks ih =>
    obtain ⟨f, p⟩ := k
    rw [List.cons_append, stages, stages, ih, sizes, Nat.add_assoc, List.append_assoc]

mutual

theorem length_stage (base : Nat) : ∀ p : Plain, (p.stage base).length = p.size
  | ⟨_, _, children⟩ => by
    rw [stage, size, List.length_cons, length_stages (base + 1) children]

theorem length_stages (base : Nat) :
    ∀ ks : List (Field × Plain), (stages base ks).length = sizes ks
  | [] => rfl
  | (_, p) :: ks => by
    rw [stages, sizes, List.length_append, length_stage base p, length_stages (base + p.size) ks]

end

theorem le_of_mem_numbers {base : Nat} {ks : List (Field × Plain)} {e : Field × Nat}
    (h : e ∈ numbers base ks) : base ≤ e.2 := by
  induction ks generalizing base with
  | nil => cases h
  | cons k ks ih =>
    obtain ⟨f, p⟩ := k
    rw [numbers, List.mem_cons] at h
    rcases h with rfl | h
    · exact Nat.le_refl base
    · have := ih h
      omega

mutual

/-- The numbers of the nodes below a collected node are higher than its own. -/
theorem lt_of_mem_children_stage {base i : Nat} {s : Staged} {e : Field × Nat} :
    ∀ p : Plain, (p.stage base)[i]? = some s → e ∈ s.children → base + i < e.2
  | ⟨_, _, children⟩, hs, he => by
    rw [stage] at hs
    cases i with
    | zero =>
      obtain rfl := Option.some.inj hs
      exact le_of_mem_numbers he
    | succ i =>
      have : base + 1 + i < e.2 := lt_of_mem_children children hs he
      omega

theorem lt_of_mem_children {base i : Nat} {s : Staged} {e : Field × Nat} :
    ∀ ks : List (Field × Plain), (stages base ks)[i]? = some s → e ∈ s.children → base + i < e.2
  | [], hs, _ => by simp [stages] at hs
  | (_, p) :: ks, hs, he => by
    rw [stages, List.getElem?_append, length_stage] at hs
    split at hs
    · exact lt_of_mem_children_stage p hs he
    · have := lt_of_mem_children ks hs he
      omega

end

/-- The numbers that a list of collected nodes refers to. -/
def references (nodes : List Staged) : List Nat :=
  nodes.flatMap fun n => n.children.map (·.2)

mutual

theorem perm_references_stage (base : Nat) : ∀ p : Plain,
    (base :: references (p.stage base)).Perm (List.range' base p.size)
  | ⟨kind, span, children⟩ => by
    rw [stage, size, List.range'_succ, references, List.flatMap_cons]
    exact (perm_numbers_stages (base + 1) children).cons base

/-- Every number is that of a tree at the top, or is referred to once. -/
theorem perm_numbers_stages (base : Nat) : ∀ ks : List (Field × Plain),
    ((numbers base ks).map (·.2) ++ references (stages base ks)).Perm
      (List.range' base (sizes ks))
  | [] => by simp [numbers, stages, sizes, references]
  | (f, p) :: ks => by
    have hp := perm_references_stage base p
    have hks := perm_numbers_stages (base + p.size) ks
    rw [numbers, stages, sizes, ← List.range'_append_1, references, List.flatMap_append,
      List.map_cons]
    refine List.Perm.trans ?_ (hp.append hks)
    rw [List.cons_append, List.cons_append]
    refine List.Perm.cons base ?_
    rw [← List.append_assoc, ← List.append_assoc]
    exact List.perm_append_comm.append_right _

end

end Plain

/-! ## Branches without wrappers -/

namespace Branch

open Plain (sizes numbers stages)

theorem pushEntries_eq (f : Field) (found : List (Field × Plain))
    (entries : List (Field × Branch)) :
    pushEntries f found entries = pushFields found (entries.map fun e => (f, e.2)) := by
  induction entries generalizing found with
  | nil => rfl
  | cons e entries ih =>
    obtain ⟨g, b⟩ := e
    rw [pushEntries, ih, List.map_cons, pushFields]

theorem pushItems_eq (f : Field) (found : List (Field × Plain)) (items : List Branch) :
    pushItems f found items = pushFields found (items.map fun b => (f, b)) := by
  induction items generalizing found with
  | nil => rfl
  | cons b items ih => rw [pushItems, ih, List.map_cons, pushFields]

/-- A wrapper stands for its parts, all of them under the field of the wrapper. -/
theorem push_of_wrapper {b : Branch} (h : b.tree? = none) (f : Field)
    (found : List (Field × Plain)) :
    b.push f found = pushFields found (b.parts.map fun c => (f, c)) := by
  cases b with
  | node kind span fields => cases h
  | group entries => rw [push, pushEntries_eq, parts, List.map_map]; rfl
  | list items => rw [push, pushItems_eq]; rfl

theorem push_of_tree? {b : Branch} {t : Tree} (h : b.tree? = some t) (f : Field)
    (found : List (Field × Plain)) : b.push f found = (f, t.plain) :: found := by
  rw [eq_branch_of_tree? h, Tree.branch, push]
  rfl

theorem pushFields_eq_append {entries : List (Field × Branch)}
    (h : ∀ e ∈ entries, ∀ f found, e.2.push f found = e.2.push f [] ++ found)
    (found : List (Field × Plain)) : pushFields found entries = pushFields [] entries ++ found := by
  induction entries generalizing found with
  | nil => rfl
  | cons e entries ih =>
    obtain ⟨f, b⟩ := e
    have hb := h (f, b) List.mem_cons_self f
    have ih := ih fun e he => h e (List.mem_cons_of_mem _ he)
    rw [pushFields, pushFields, ih, ih (b.push f []), hb found, List.append_assoc]

theorem push_eq_append (b : Branch) (f : Field) (found : List (Field × Plain)) :
    b.push f found = b.push f [] ++ found := by
  induction b using parts_induction generalizing f found with
  | step b ih =>
    cases h : b.tree? with
    | some t => rw [push_of_tree? h, push_of_tree? h]; rfl
    | none =>
      rw [push_of_wrapper h, push_of_wrapper h]
      refine pushFields_eq_append ?_ found
      intro e he
      obtain ⟨c, hc, rfl⟩ := List.mem_map.mp he
      exact ih c hc

theorem pushFields_cons (f : Field) (b : Branch) (entries : List (Field × Branch)) :
    pushFields [] ((f, b) :: entries) = pushFields [] entries ++ b.push f [] := by
  rw [pushFields, pushFields_eq_append fun e _ => e.2.push_eq_append]

theorem map_snd_map_mk (f : Field) (cs : List Branch) :
    (cs.map fun c => (f, c)).map (·.2) = cs := by
  rw [List.map_map]
  exact List.map_id cs

theorem length_itemAddresses {entries : List (Field × Branch)} {i : Nat}
    (h : ∀ e ∈ entries, ∀ f, e.2.addresses.length = sizes (e.2.push f [])) :
    (itemAddresses i (entries.map (·.2))).length = sizes (pushFields [] entries) := by
  induction entries generalizing i with
  | nil => rfl
  | cons e entries ih =>
    obtain ⟨f, b⟩ := e
    have hb := h (f, b) List.mem_cons_self f
    have ih := ih (i := i + 1) fun e he => h e (List.mem_cons_of_mem _ he)
    rw [List.map_cons, itemAddresses, pushFields_cons, Plain.sizes_append, List.length_append,
      List.length_map, ih, hb]

/-- There are as many addresses as nodes. -/
theorem length_addresses (b : Branch) (f : Field) :
    b.addresses.length = sizes (b.push f []) := by
  induction b using parts_induction generalizing f with
  | step b ih =>
    have hparts : ∀ entries : List (Field × Branch), entries.map (·.2) = b.parts →
        (itemAddresses 0 b.parts).length = sizes (pushFields [] entries) := by
      intro entries he
      rw [← he]
      exact length_itemAddresses fun e hm => ih e.2 (he ▸ List.mem_map_of_mem hm)
    rw [addresses_eq, List.length_append]
    cases h : b.tree? with
    | none =>
      rw [push_of_wrapper h, hparts (b.parts.map fun c => (f, c)) (map_snd_map_mk f b.parts)]
      simp
    | some t =>
      have hfields : t.fields.map (·.2) = b.parts := by rw [eq_branch_of_tree? h]; rfl
      rw [push_of_tree? h, hparts t.fields hfields, sizes, sizes, Tree.plain, Plain.size]
      simp [Nat.add_comm]

end Branch

/-! ## Numbers of addresses -/

/-- The addresses have consecutive numbers from `base` on. -/
def Numbered (number : Address → Nat) (base : Nat) (ps : List Address) : Prop :=
  ps.map number = List.range' base ps.length

namespace Numbered

variable {number : Address → Nat} {base : Nat}

theorem of_append {ps qs : List Address} (h : Numbered number base (ps ++ qs)) :
    Numbered number base ps ∧ Numbered number (base + ps.length) qs := by
  unfold Numbered at h
  rw [List.map_append, List.length_append, ← List.range'_append_1] at h
  exact List.append_inj h (by simp)

theorem head {p : Address} {ps : List Address} (h : Numbered number base (p :: ps)) :
    number p = base ∧ Numbered number (base + 1) ps := by
  unfold Numbered at h
  rw [List.map_cons, List.length_cons, List.range'_succ] at h
  exact List.cons.inj h

theorem of_map {i : Nat} {ps : List Address} (h : Numbered number base (ps.map (i :: ·))) :
    Numbered (fun p => number (i :: p)) base ps := by
  unfold Numbered at h
  rw [List.map_map, List.length_map] at h
  exact h

end Numbered

/-- A collected node agrees with the node at an address: in kind and span, and the nodes it refers
    to are those that the node holds, each with its field. -/
structure Staged.Describes (number : Address → Nat) (s : Staged) (n : Tree) (p : Address) :
    Prop where
  kind : s.kind = n.kind
  span : s.span = n.span
  children : ∀ f id, (f, id) ∈ s.children ↔ ∃ q, n.fieldOf? q = some f ∧ number (p ++ q) = id

namespace Branch

open Plain (sizes numbers stages)

theorem mem_numbers_pushFields {entries : List (Field × Branch)}
    (h : ∀ e ∈ entries, ∀ f base number, Numbered number base e.2.addresses → ∀ g id,
      (g, id) ∈ numbers base (e.2.push f []) ↔ g = f ∧ ∃ q, e.2.exposes q ∧ number q = id)
    {number : Address → Nat} {base i : Nat}
    (hn : Numbered number base (itemAddresses i (entries.map (·.2)))) (g : Field) (id : Nat) :
    (g, id) ∈ numbers base (pushFields [] entries) ↔
      ∃ k b q, entries[k]? = some (g, b) ∧ b.exposes q ∧ number ((i + k) :: q) = id := by
  induction entries generalizing base i with
  | nil => simp [pushFields, numbers]
  | cons e entries ih =>
    obtain ⟨f, b⟩ := e
    rw [List.map_cons, itemAddresses] at hn
    obtain ⟨hrest, hb⟩ := hn.of_append
    rw [length_itemAddresses fun e _ => e.2.length_addresses] at hb
    have hb := h (f, b) List.mem_cons_self f _ _ hb.of_map g id
    have ih := ih (fun e he => h e (List.mem_cons_of_mem _ he)) hrest
    rw [pushFields_cons, Plain.numbers_append, List.mem_append, ih, hb]
    constructor
    · rintro (⟨k, c, q, hk, hq, rfl⟩ | ⟨rfl, q, hq, rfl⟩)
      · exact ⟨k + 1, c, q, hk, hq, by congr 2; omega⟩
      · exact ⟨0, b, q, rfl, hq, rfl⟩
    · rintro ⟨_ | k, c, q, hk, hq, rfl⟩
      · obtain ⟨rfl, rfl⟩ : f = g ∧ b = c := by simpa using hk
        exact .inr ⟨rfl, q, hq, rfl⟩
      · exact .inl ⟨k, c, q, hk, hq, by congr 2; omega⟩

/-- The topmost nodes of a branch are numbered as the exposed addresses are. -/
theorem mem_numbers_push (b : Branch) (f : Field) {base : Nat} {number : Address → Nat}
    (hn : Numbered number base b.addresses) (g : Field) (id : Nat) :
    (g, id) ∈ numbers base (b.push f []) ↔ g = f ∧ ∃ q, b.exposes q ∧ number q = id := by
  induction b using parts_induction generalizing f base number g id with
  | step b ih =>
    rw [addresses_eq] at hn
    cases h : b.tree? with
    | some t =>
      rw [h] at hn
      have hroot : number [] = base := hn.head.1
      have hq : ∀ q, b.exposes q ↔ q = [] := by
        intro q
        cases q with
        | nil => simp [exposes, h]
        | cons i q => simp [exposes_cons, h]
      simp only [push_of_tree? h, numbers, List.mem_singleton, Prod.mk.injEq, hq]
      simp [hroot, eq_comm]
    | none =>
      have hn : Numbered number base (itemAddresses 0 b.parts) := by simpa [h] using hn
      rw [push_of_wrapper h, mem_numbers_pushFields (i := 0) ?_ (by rwa [map_snd_map_mk])]
      · constructor
        · rintro ⟨k, c, q, hk, hq, rfl⟩
          obtain ⟨d, hd, hfd⟩ := Option.map_eq_some_iff.mp (List.getElem?_map ▸ hk)
          obtain ⟨rfl, rfl⟩ := Prod.mk.inj hfd
          exact ⟨rfl, k :: q, exposes_cons.mpr ⟨h, d, hd, hq⟩, by rw [Nat.zero_add]⟩
        · rintro ⟨rfl, _ | ⟨k, q⟩, hq, rfl⟩
          · simp [exposes, h] at hq
          · obtain ⟨-, c, hc, hq⟩ := exposes_cons.mp hq
            exact ⟨k, c, q, by simp [hc], hq, by rw [Nat.zero_add]⟩
      · intro e he f base number hn g id
        obtain ⟨c, hc, rfl⟩ := List.mem_map.mp he
        exact ih c hc f hn g id

/-- The collected nodes of entries agree with the nodes at their addresses; the first entry has the
    index `i`. -/
theorem forall₂_stages_pushFields {entries : List (Field × Branch)}
    (h : ∀ e ∈ entries, ∀ f base number, Numbered number base e.2.addresses →
      List.Forall₂ (fun p s => ∃ n, e.2.node? p = some n ∧ s.Describes number n p)
        e.2.addresses (stages base (e.2.push f [])))
    {number : Address → Nat} {base i : Nat}
    (hn : Numbered number base (itemAddresses i (entries.map (·.2)))) :
    List.Forall₂ (fun p s => ∃ k e q n, entries[k]? = some e ∧ p = (i + k) :: q ∧
        e.2.node? q = some n ∧ s.Describes number n p)
      (itemAddresses i (entries.map (·.2))) (stages base (pushFields [] entries)) := by
  induction entries generalizing base i with
  | nil => exact .nil
  | cons e entries ih =>
    rw [List.map_cons, itemAddresses] at hn ⊢
    obtain ⟨hrest, he⟩ := hn.of_append
    rw [length_itemAddresses fun e _ => e.2.length_addresses] at he
    have he := h e List.mem_cons_self e.1 _ _ he.of_map
    have ih := ih (fun e he => h e (List.mem_cons_of_mem _ he)) hrest
    rw [pushFields_cons e.1 e.2, Plain.stages_append]
    refine List.rel_append (ih.imp ?_) (List.forall₂_map_left_iff.mpr (he.imp ?_))
    · rintro p s ⟨k, e, q, n, hk, rfl, hq, hd⟩
      exact ⟨k + 1, e, q, n, hk, by congr 1; omega, hq, hd⟩
    · rintro p s ⟨n, hq, hd⟩
      exact ⟨0, e, p, n, rfl, rfl, hq, hd.kind, hd.span, hd.children⟩

/-- The collected nodes of a branch agree with the nodes at its addresses. -/
theorem forall₂_stages_push (b : Branch) (f : Field) {base : Nat} {number : Address → Nat}
    (hn : Numbered number base b.addresses) :
    List.Forall₂ (fun p s => ∃ n, b.node? p = some n ∧ s.Describes number n p)
      b.addresses (stages base (b.push f [])) := by
  induction b using parts_induction generalizing f base number with
  | step b ih =>
    -- The parts of a node keep their fields, those of a wrapper have the field of the wrapper.
    have hparts : ∀ (entries : List (Field × Branch)) (base : Nat), entries.map (·.2) = b.parts →
        Numbered number base (itemAddresses 0 b.parts) →
        List.Forall₂ (fun p s => ∃ n, b.node? p = some n ∧ s.Describes number n p)
          (itemAddresses 0 b.parts) (stages base (pushFields [] entries)) := by
      intro entries base he hn
      rw [← he] at hn ⊢
      refine (forall₂_stages_pushFields ?_ hn).imp ?_
      · intro e hm f base number hn
        exact ih e.2 (he ▸ List.mem_map_of_mem hm) f hn
      · rintro p s ⟨k, e, q, n, hk, rfl, hq, hd⟩
        refine ⟨n, ?_, hd⟩
        rw [Nat.zero_add, node?_cons, ← he, List.getElem?_map, hk]
        exact hq
    rw [addresses_eq] at hn ⊢
    cases h : b.tree? with
    | none =>
      rw [h] at hn
      rw [push_of_wrapper h]
      exact hparts _ base (map_snd_map_mk f b.parts) hn
    | some t =>
      rw [h] at hn
      have hfields : t.fields.map (·.2) = b.parts := by rw [eq_branch_of_tree? h]; rfl
      obtain ⟨hroot, hn⟩ := hn.head
      rw [push_of_tree? h, stages, stages, List.append_nil, Tree.plain, Plain.stage]
      refine .cons ⟨t, h, rfl, rfl, ?_⟩ ?_
      · intro g id
        rw [mem_numbers_pushFields (fun e _ f base number hn g id => e.2.mem_numbers_push f hn g id)
          (by rwa [hfields])]
        constructor
        · rintro ⟨k, c, q, hk, hq, rfl⟩
          exact ⟨k :: q, Tree.fieldOf?_eq_some.mpr ⟨k, c, q, rfl, hk, hq⟩, by
            rw [Nat.zero_add]; rfl⟩
        · rintro ⟨p, hp, rfl⟩
          obtain ⟨k, c, q, rfl, hk, hq⟩ := Tree.fieldOf?_eq_some.mp hp
          exact ⟨k, c, q, hk, hq, by rw [Nat.zero_add]; rfl⟩
      · exact hparts t.fields (base + 1) hfields hn

end Branch

/-! ## Trees -/

namespace Tree

/-- The number of the node at an address. -/
def number (t : Tree) (p : Address) : Nat :=
  t.addresses.idxOf p

theorem numbered_addresses (t : Tree) : Numbered t.number 0 t.addresses := by
  refine List.ext_getElem (by simp) fun i hi _ => ?_
  rw [List.getElem_map, List.getElem_range', number, t.nodup_addresses.idxOf_getElem]
  omega

theorem stage_plain (t : Tree) (f : Field) :
    t.plain.stage 0 = Plain.stages 0 (t.branch.push f []) := by
  rw [Branch.push_of_tree? (t := t) rfl, Plain.stages, Plain.stages, List.append_nil]

theorem size_plain (t : Tree) : t.plain.size = t.addresses.length := by
  rw [addresses, t.branch.length_addresses .body, ← Plain.length_stages 0, ← t.stage_plain,
    Plain.length_stage]

theorem size_staging (t : Tree) : (Staging.ofTree t).nodes.size = t.addresses.length := by
  rw [Staging.ofTree, List.size_toArray, Plain.length_stage, size_plain]

/-- Under the number of an address stands the node of that address. -/
theorem exists_staged {t n : Tree} {p : Address} (h : t.node? p = some n) :
    ∃ s, (Staging.ofTree t).nodes[t.number p]? = some s ∧ s.Describes t.number n p := by
  have hall := t.branch.forall₂_stages_push .body t.numbered_addresses
  rw [← t.stage_plain, List.forall₂_iff_get] at hall
  obtain ⟨hlen, hall⟩ := hall
  have hp : p ∈ t.addresses := mem_addresses.mpr (by rw [h]; rfl)
  have hi : t.number p < t.branch.addresses.length := List.idxOf_lt_length_of_mem hp
  obtain ⟨m, hm, hd⟩ := hall (t.number p) hi (hlen ▸ hi)
  have hget : t.branch.addresses.get ⟨t.number p, hi⟩ = p := List.getElem_idxOf hi
  rw [hget] at hm hd
  obtain rfl : n = m := Option.some.inj (h.symm.trans hm)
  refine ⟨_, ?_, hd⟩
  rw [Staging.ofTree, List.getElem?_toArray, List.getElem?_eq_getElem (hlen ▸ hi)]
  rfl

end Tree

end Stepflow
