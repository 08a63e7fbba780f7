import Mathlib
import Stepflow.Proofs.Faults

/-!
# Nodes inside nodes

A concrete tree becomes a tree in which nodes are moved and spans are changed: decorators go to the
member behind them, which then begins at the first one; a type goes to the name in front of it,
which then ends with the type; and some constructs lose their span. Every node still lies inside the
node that holds it.

* `Concrete.Orderly`: the children of every node lie inside it, one behind the other.
* `Branch.Inside`: a branch lies inside a span, and what its nodes hold lies inside them.
* `Lowered.Laid`: what became of children that lie one behind the other.
* `Waits`: decorators in front of the children that are left.

Results:
* `inside_fieldsOf`, `inside_classMembers`, `inside_declaratorFields`: what becomes of the children
  lies where the children lie.
* `Concrete.inside_branch?`: what becomes of a node lies in the bytes of the node.
* `Branch.Inside.nested`: in a branch inside a span, every node lies inside the node that holds it.
* `Concrete.branch_nested`: so it is in everything that becomes of an orderly concrete tree.
-/

namespace Stepflow

/-! ## Orderly concrete trees -/

namespace Concrete

/-- The roles of the children of a declared variable, in their order. -/
def declaredRoles : List String :=
  ["name", "type", "value"]

/-- There is at most one name, one type and one value, in this order, and the type is written as a
    type. -/
def Declares (children : List Concrete) : Prop :=
  ((children.filterMap (·.role)).filter (declaredRoles.contains ·)).Sublist declaredRoles ∧
    ∀ c ∈ children, c.role = some "type" → c.kind = "type_annotation"

instance (children : List Concrete) : Decidable (Declares children) :=
  inferInstanceAs (Decidable (_ ∧ _))

mutual

/-- No node ends before it starts, the children of every node lie inside it, each behind those in
    front of it, and the children of declared variables are as they must be. -/
def Orderly : Concrete → Prop
  | ⟨kind, _, _, start, stop, _, children⟩ =>
    start ≤ stop ∧ (∀ c ∈ children, start ≤ c.start ∧ c.stop ≤ stop) ∧
      children.Pairwise (fun c d => c.stop ≤ d.start) ∧
      (kind = "variable_declarator" → Declares children) ∧ AllOrderly children

/-- All trees are orderly. -/
def AllOrderly : List Concrete → Prop
  | [] => True
  | c :: cs => c.Orderly ∧ AllOrderly cs

end

mutual

/-- Whether a tree is orderly can be told. -/
def decideOrderly : (n : Concrete) → Decidable n.Orderly
  | ⟨kind, standing, role, start, stop, text, children⟩ =>
    have := decideAllOrderly children
    decidable_of_iff (start ≤ stop ∧ (∀ c ∈ children, start ≤ c.start ∧ c.stop ≤ stop) ∧
        children.Pairwise (fun c d => c.stop ≤ d.start) ∧
        (kind = "variable_declarator" → Declares children) ∧ AllOrderly children)
      (by rw [Orderly])

/-- Whether trees are orderly can be told. -/
def decideAllOrderly : (cs : List Concrete) → Decidable (AllOrderly cs)
  | [] => .isTrue (by rw [AllOrderly]; trivial)
  | c :: cs =>
    have := decideOrderly c
    have := decideAllOrderly cs
    decidable_of_iff (c.Orderly ∧ AllOrderly cs) (by rw [AllOrderly])

end

instance (n : Concrete) : Decidable n.Orderly :=
  decideOrderly n

variable {n : Concrete}

theorem orderly_iff : n.Orderly ↔
    n.start ≤ n.stop ∧ (∀ c ∈ n.children, n.start ≤ c.start ∧ c.stop ≤ n.stop) ∧
      n.children.Pairwise (fun c d => c.stop ≤ d.start) ∧
      (n.kind = "variable_declarator" → Declares n.children) ∧ ∀ c ∈ n.children, c.Orderly := by
  have hall : ∀ cs : List Concrete, AllOrderly cs ↔ ∀ c ∈ cs, c.Orderly := by
    intro cs
    induction cs with
    | nil => simp [AllOrderly]
    | cons c cs ih => rw [AllOrderly, ih, List.forall_mem_cons]
  rw [← hall]
  obtain ⟨kind, standing, role, start, stop, text, children⟩ := n
  rw [Orderly]

theorem Orderly.start_le_stop (h : n.Orderly) : n.start ≤ n.stop :=
  (orderly_iff.mp h).1

theorem Orderly.child_within (h : n.Orderly) {c : Concrete} (hc : c ∈ n.children) :
    c.span.Within n.span := by
  obtain ⟨hstart, hstop⟩ := (orderly_iff.mp h).2.1 c hc
  exact ⟨Nat.succ_le_succ hstart, Nat.succ_le_succ hstop⟩

theorem Orderly.pairwise (h : n.Orderly) : n.children.Pairwise fun c d => c.stop ≤ d.start :=
  (orderly_iff.mp h).2.2.1

theorem Orderly.declares (h : n.Orderly) (hkind : n.kind = "variable_declarator") :
    Declares n.children :=
  (orderly_iff.mp h).2.2.2.1 hkind

theorem Orderly.child (h : n.Orderly) {c : Concrete} (hc : c ∈ n.children) : c.Orderly :=
  (orderly_iff.mp h).2.2.2.2 c hc

/-- In a declared variable the type comes behind the name. -/
theorem Orderly.name_before_type (h : n.Orderly) (hkind : n.kind = "variable_declarator")
    {name type : Concrete} (hname : n.child? "name" = some name)
    (htype : n.child? "type" = some type) : name.stop ≤ type.start := by
  have hnameRole : name.role = some "name" := by simpa using List.find?_some hname
  have htypeRole : type.role = some "type" := by simpa using List.find?_some htype
  obtain ⟨front, back, hchildren⟩ := List.append_of_mem (mem_children_of_child? hname)
  have hmem := mem_children_of_child? htype
  have hpairwise := h.pairwise
  obtain ⟨hroles, -⟩ := h.declares hkind
  rw [hchildren] at hmem hpairwise hroles
  rcases List.mem_append.mp hmem with hfront | hback
  · -- A type in front of the name would be listed in front of it.
    obtain ⟨before, between, rfl⟩ := List.append_of_mem hfront
    have hpair : [type, name].Sublist (before ++ type :: between ++ name :: back) := by
      rw [List.append_assoc, List.cons_append]
      exact ((List.singleton_sublist.mpr (by simp)).cons_cons type).trans
        (List.sublist_append_right _ _)
    have hsub := (hpair.filterMap (·.role)).filter (declaredRoles.contains ·)
    have hlisted : ([type, name].filterMap (·.role)).filter (declaredRoles.contains ·) =
        ["type", "name"] := by
      simp [hnameRole, htypeRole, declaredRoles]
    rw [hlisted] at hsub
    exact absurd (hsub.trans hroles) (by decide)
  · rcases List.mem_cons.mp hback with rfl | hback
    · rw [hnameRole] at htypeRole
      exact absurd htypeRole (by decide)
    · exact (List.pairwise_cons.mp (List.pairwise_append.mp hpairwise).2.1).1 type hback

end Concrete

/-! ## Branches inside a span -/

/-- The span starts at the first byte or behind it, and does not end before it starts. -/
def Span.Proper (x : Span) : Prop :=
  1 ≤ x.start ∧ x.start ≤ x.stop

namespace Branch

/-- The branch lies inside a span, and so does all that its nodes hold inside of them. -/
inductive Inside : Span → Branch → Prop
  | node {x span : Span} {kind : Kind} {fields : List (Field × Branch)} (proper : span.Proper)
      (within : span.Within x) (all : ∀ c ∈ fields.map (·.2), Inside span c) :
      Inside x (node kind span fields)
  | group {x : Span} {entries : List (Field × Branch)}
      (all : ∀ c ∈ entries.map (·.2), Inside x c) : Inside x (group entries)
  | list {x : Span} {items : List Branch} (all : ∀ c ∈ items, Inside x c) : Inside x (list items)

variable {x y : Span} {b : Branch}

theorem Inside.mono (h : Inside x b) (hxy : x.Within y) : Inside y b := by
  induction h with
  | node proper within all _ => exact .node proper (within.trans hxy) all
  | group _ ih => exact .group fun c hc => ih c hc hxy
  | list _ ih => exact .list fun c hc => ih c hc hxy

/-- A node may be given more room and more children. -/
theorem Inside.grown {kind : Kind} {span : Span} {fields more : List (Field × Branch)}
    (h : Inside x (.node kind span fields)) (wide : Span) (hspan : span.Within wide)
    (hproper : wide.Proper) (hwide : wide.Within x)
    (hmore : ∀ c ∈ more.map (·.2), Inside wide c) :
    Inside x (.node kind wide (fields ++ more)) := by
  cases h with
  | node _ _ all =>
    refine .node hproper hwide ?_
    intro c hc
    rw [List.map_append, List.mem_append] at hc
    rcases hc with hc | hc
    · exact (all c hc).mono hspan
    · exact hmore c hc

theorem Inside.span_of_node {kind : Kind} {span : Span} {fields : List (Field × Branch)}
    (h : Inside x (.node kind span fields)) : span.Proper ∧ span.Within x := by
  cases h with
  | node proper within _ => exact ⟨proper, within⟩

/-- A node that can be reached through wrappers only lies inside the span. -/
theorem Inside.within_of_exposes (h : Inside x b) {p : Address} {t : Tree}
    (hp : b.exposes p = true) (ht : b.node? p = some t) : t.span.Within x := by
  induction p generalizing b with
  | nil =>
    rw [eq_branch_of_tree? (b := b) ht] at h
    exact h.span_of_node.2
  | cons i p ih =>
    obtain ⟨hwrapper, c, hc, hexposes⟩ := exposes_cons.mp hp
    rw [node?_cons, hc] at ht
    have hmem := List.mem_of_getElem? hc
    cases h with
    | node => cases hwrapper
    | group all => exact ih (all c hmem) hexposes ht
    | list all => exact ih (all c hmem) hexposes ht

/-- What is somewhere in the branch lies inside something. -/
theorem Inside.exists_of_node? (h : Inside x b) {p : Address} {t : Tree}
    (ht : b.node? p = some t) : ∃ y, Inside y t.branch := by
  induction p generalizing b x with
  | nil => exact ⟨x, eq_branch_of_tree? (b := b) ht ▸ h⟩
  | cons i p ih =>
    rw [node?_cons] at ht
    obtain ⟨c, hc, hnode⟩ := Option.bind_eq_some_iff.mp ht
    have hmem := List.mem_of_getElem? hc
    cases h with
    | node _ _ all => exact ih (all c hmem) hnode
    | group all => exact ih (all c hmem) hnode
    | list all => exact ih (all c hmem) hnode

theorem Inside.proper (h : Inside x b) {p : Address} {t : Tree} (ht : b.node? p = some t) :
    t.span.Proper := by
  obtain ⟨y, hy⟩ := h.exists_of_node? ht
  exact hy.span_of_node.1

/-- Every node lies inside the node that holds it. -/
theorem Inside.nested {t : Tree} (h : Inside x t.branch) : t.Nested := by
  intro p q hown
  obtain ⟨f, r, hr, hf⟩ := Tree.NodeAddress.owns_iff_exists_holds.mp hown
  have hq : p.node.node? r = some q.node := by
    rw [← Tree.node?_append p.node?_eq, ← hr, q.node?_eq]
  obtain ⟨i, b, s, rfl, hfield, hexposes⟩ := Tree.fieldOf?_eq_some.mp hf
  obtain ⟨y, hy⟩ := h.exists_of_node? (t := p.node) p.node?_eq
  have hpart : p.node.branch.parts[i]? = some b := by
    simp [Tree.branch, parts, hfield]
  rw [Tree.node?, node?_cons, hpart] at hq
  cases hy with
  | node _ _ all =>
    exact (all b (List.mem_of_getElem? hpart)).within_of_exposes hexposes hq

end Branch

open Branch (Inside)

/-! ## Children -/

section Children

variable {x : Span}

theorem inside_addChild {field : Field} {child : Branch} {entries : List (Field × Branch)}
    (hchild : Inside x child) (h : ∀ c ∈ entries.map (·.2), Inside x c) :
    ∀ c ∈ (addChild field child entries).map (·.2), Inside x c := by
  fun_induction addChild field child entries with
  | case1 =>
    split_ifs
    · simpa using Inside.list (by simpa using hchild)
    · simpa using hchild
  | case2 entries items =>
    simp only [List.map_cons, List.forall_mem_cons] at h ⊢
    refine ⟨.list ?_, h.2⟩
    cases h.1 with
    | list all => exact List.forall_mem_append.mpr ⟨all, by simpa using hchild⟩
  | case3 entries b =>
    simp only [List.map_cons, List.forall_mem_cons] at h ⊢
    exact ⟨.list (by simpa using ⟨h.1, hchild⟩), h.2⟩
  | case4 f b entries hf ih =>
    simp only [List.map_cons, List.forall_mem_cons] at h ⊢
    exact ⟨h.1, ih h.2⟩

/-- Children that lie inside a span, one behind the other, and what became of each of them lies in
    its bytes. -/
structure Lowered.Laid (x : Span) (children : Lowered) : Prop where
  inside : ∀ child ∈ children, ∀ b ∈ child.2, Inside child.1.span b
  within : ∀ child ∈ children, child.1.span.Within x
  order : children.Pairwise fun c d => c.1.stop ≤ d.1.start

theorem Lowered.Laid.inside_of_mem {children : Lowered} (h : children.Laid x)
    {child : Concrete × Option Branch} (hchild : child ∈ children) {b : Branch}
    (hb : child.2 = some b) : Inside x b :=
  (h.inside child hchild b hb).mono (h.within child hchild)

theorem Lowered.Laid.tail {child : Concrete × Option Branch} {children : Lowered}
    (h : Lowered.Laid x (child :: children)) : children.Laid x where
  inside c hc := h.inside c (List.mem_cons_of_mem _ hc)
  within c hc := h.within c (List.mem_cons_of_mem _ hc)
  order := (List.pairwise_cons.mp h.order).2

/-- The fields of a node lie where its children lie. -/
theorem inside_fieldsOf (parent : String) {children : Lowered} (h : children.Laid x) :
    ∀ c ∈ (fieldsOf parent children).map (·.2), Inside x c := by
  unfold fieldsOf
  refine List.foldlRecOn
    (motive := fun (entries : List (Field × Branch)) => ∀ c ∈ entries.map (·.2), Inside x c)
    children _ ?_ ?_
  · simp
  · intro entries hentries child hchild
    cases hb : child.2 with
    | none => exact hentries
    | some b => exact inside_addChild (h.inside_of_mem hchild hb) hentries

/-- Decorators that wait for a member. They lie between the start of the first of them, which is
    inside the span, and the place `here`. -/
structure Waits (x : Span) (here : Nat) (decorators : List (Span × Branch)) : Prop where
  first : ∀ d ∈ decorators.head?, 1 ≤ d.1.start ∧ x.start ≤ d.1.start ∧ d.1.start ≤ here
  between : ∀ d ∈ decorators.head?, ∀ e ∈ decorators,
    Inside { start := d.1.start, stop := here } e.2

theorem waits_nil (x : Span) (here : Nat) : Waits x here [] :=
  ⟨nofun, nofun⟩

section Waits

variable {here : Nat} {decorators : List (Span × Branch)} {n : Concrete} {kind : Kind}
  {span : Span} {fields : List (Field × Branch)}

/-- One more decorator waits. -/
theorem Waits.concat (h : Waits x here decorators)
    (hinside : Inside n.span (.node kind span fields)) (hwithin : n.span.Within x)
    (hhere : here ≤ n.span.start) :
    Waits x n.span.stop (decorators ++ [(span, .node kind span fields)]) := by
  obtain ⟨⟨hpos, hproper⟩, hstart, hstop⟩ := hinside.span_of_node
  cases decorators with
  | nil =>
    constructor
    · rintro _ ⟨⟩
      exact ⟨hpos, Nat.le_trans hwithin.1 hstart, Nat.le_trans hproper hstop⟩
    · rintro _ ⟨⟩ e he
      rw [List.mem_singleton.mp he]
      cases hinside with
      | node proper _ all => exact .node proper ⟨Nat.le_refl _, hstop⟩ all
  | cons first ds =>
    obtain ⟨hfirstPos, hfirstStart, hfirstHere⟩ := h.first first rfl
    constructor
    · rintro _ ⟨⟩
      exact ⟨hfirstPos, hfirstStart, by omega⟩
    · rintro _ ⟨⟩ e he
      rcases List.mem_append.mp he with he | he
      · exact (h.between first rfl e he).mono ⟨Nat.le_refl _, show here ≤ n.span.stop by omega⟩
      · rw [List.mem_singleton.mp he]
        exact hinside.mono ⟨Nat.le_trans hfirstHere hhere, Nat.le_refl _⟩

/-- The decorators that wait lie inside the span. -/
theorem Waits.inside (h : Waits x here decorators) (hhere : here ≤ x.stop) :
    ∀ d ∈ decorators, Inside x d.2 := by
  intro d hd
  cases decorators with
  | nil => cases hd
  | cons first ds => exact (h.between first rfl d hd).mono ⟨(h.first first rfl).2.1, hhere⟩

/-- A member that takes the decorators in front of it grows over them. -/
theorem Waits.inside_decorated (h : Waits x here decorators)
    (hinside : Inside n.span (.node kind span fields)) (hwithin : n.span.Within x)
    (hhere : here ≤ n.span.start) : Inside x (decorated decorators (.node kind span fields)) := by
  obtain ⟨⟨hpos, hproper⟩, hstart, hstop⟩ := hinside.span_of_node
  cases decorators with
  | nil => simpa [decorated] using hinside.mono hwithin
  | cons first ds =>
    obtain ⟨hfirstPos, hfirstStart, hfirstHere⟩ := h.first first rfl
    have hxstart := hwithin.1
    have hxstop := hwithin.2
    refine (hinside.mono hwithin).grown
      { start := min span.start first.1.start, stop := span.stop }
      ⟨Nat.min_le_left _ _, Nat.le_refl _⟩ ?_ ?_ ?_
    · constructor
      · show 1 ≤ min span.start first.1.start
        omega
      · show min span.start first.1.start ≤ span.stop
        omega
    · constructor
      · show x.start ≤ min span.start first.1.start
        omega
      · exact Nat.le_trans hstop hxstop
    · intro c hc
      rw [List.map_map, List.mem_map] at hc
      obtain ⟨e, he, rfl⟩ := hc
      refine (h.between first rfl e he).mono ⟨Nat.min_le_right _ _, ?_⟩
      show here ≤ span.stop
      omega

end Waits

/-- The members of a class, with their decorators, lie where the children lie. -/
theorem inside_classMembers {decorators : List (Span × Branch)} {entries : List (Field × Branch)}
    {left : Lowered} {here : Nat} (hlaid : left.Laid x) (hwaits : Waits x here decorators)
    (hhere : here ≤ x.stop) (hleft : ∀ child ∈ left, here ≤ child.1.span.start)
    (hentries : ∀ c ∈ entries.map (·.2), Inside x c) :
    ∀ c ∈ (classMembers decorators entries left).map (·.2), Inside x c := by
  fun_induction classMembers decorators entries left generalizing here with
  | case1 decorators entries =>
    refine List.foldlRecOn
      (motive := fun (entries : List (Field × Branch)) => ∀ c ∈ entries.map (·.2), Inside x c)
      decorators _ hentries ?_
    intro entries hentries d hd
    exact inside_addChild (hwaits.inside hhere d hd) hentries
  | case2 decorators entries n rest ih =>
    exact ih hlaid.tail hwaits hhere (fun c hc => hleft c (List.mem_cons_of_mem _ hc)) hentries
  | case3 decorators entries n kind span fields rest member hn =>
    rename_i ih
    have hinside := hlaid.inside _ List.mem_cons_self _ rfl
    have hwithin := hlaid.within _ List.mem_cons_self
    refine ih hlaid.tail (hwaits.concat hinside hwithin (hleft _ List.mem_cons_self)) hwithin.2 ?_
      hentries
    intro child hchild
    exact Nat.succ_le_succ ((List.pairwise_cons.mp hlaid.order).1 child hchild)
  | case4 decorators entries n kind span fields rest member hn =>
    rename_i ih
    have hinside := hlaid.inside _ List.mem_cons_self _ rfl
    have hwithin := hlaid.within _ List.mem_cons_self
    have hmember := hwaits.inside_decorated hinside hwithin (hleft _ List.mem_cons_self)
    exact ih hlaid.tail (waits_nil x here) hhere
      (fun c hc => hleft c (List.mem_cons_of_mem _ hc)) (inside_addChild hmember hentries)
  | case5 decorators entries n wrapper rest hwrapper ih =>
    exact ih hlaid.tail hwaits hhere (fun c hc => hleft c (List.mem_cons_of_mem _ hc))
      (inside_addChild (hlaid.inside_of_mem List.mem_cons_self rfl) hentries)

/-- A name grows over the type that follows it. -/
theorem inside_boundName {name type? : Option Branch} (hname : ∀ b ∈ name, Inside x b)
    (htype : ∀ b ∈ type?, Inside x b)
    (hbehind : ∀ b ∈ name, ∀ c ∈ type?, ∀ t ∈ b.tree?,
      ∃ u, c.tree? = some u ∧ t.span.start ≤ u.span.start) :
    ∀ c ∈ (boundName name type?).map (·.2), Inside x c := by
  unfold boundName
  split
  next s span fields =>
    have hinside := hname _ rfl
    cases type? with
    | none => simpa using hinside
    | some type =>
      obtain ⟨u, hu, hstart⟩ := hbehind _ rfl type rfl _ rfl
      obtain rfl := Branch.eq_branch_of_tree? hu
      have htype := htype _ rfl
      obtain ⟨⟨hpos, hproper⟩, hwithin⟩ := hinside.span_of_node
      have htypeWithin := htype.span_of_node.2
      simp only [List.map_cons, List.map_nil, List.forall_mem_singleton]
      refine hinside.grown { start := span.start, stop := max span.stop u.span.stop }
        ⟨Nat.le_refl _, Nat.le_max_left _ _⟩ ⟨hpos, Nat.le_trans hproper (Nat.le_max_left _ _)⟩
        ⟨hwithin.1, Nat.max_le.mpr ⟨hwithin.2, htypeWithin.2⟩⟩ ?_
      simp only [List.map_cons, List.map_nil, List.forall_mem_singleton]
      cases htype with
      | node proper _ all => exact .node proper ⟨hstart, Nat.le_max_right _ _⟩ all
  next pattern _ =>
    cases type? with
    | none => simpa using hname
    | some type => simpa using ⟨hname _ rfl, htype _ rfl⟩
  next => simp

end Children

/-! ## Nodes -/

namespace Concrete

open Branch

variable {n : Concrete}

/-- What became of the children of an orderly node. -/
theorem Orderly.laid (h : n.Orderly) (parent : String)
    (hinside : ∀ c ∈ n.children, ∀ b ∈ c.branch? parent, Inside c.span b) :
    Lowered.Laid n.span (lowered parent n.children) := by
  rw [lowered_eq_map]
  constructor
  · intro child hchild
    obtain ⟨c, hc, rfl⟩ := List.mem_map.mp hchild
    exact hinside c hc
  · intro child hchild
    obtain ⟨c, hc, rfl⟩ := List.mem_map.mp hchild
    exact h.child_within hc
  · rw [List.pairwise_map]
    exact h.pairwise

/-- A written type becomes a node. -/
theorem exists_tree?_of_type (hkind : n.kind = "type_annotation") {parent : String} {b : Branch}
    (hb : n.branch? parent = some b) : ∃ t, b.tree? = some t := by
  have hkept : n.isDropped = false := isSome_branch?_iff.mp (Option.isSome_of_eq_some hb)
  rcases isDropped_eq_false_iff.mp hkept with hfault | ⟨hnamed, hcomment⟩
  · rw [branch?_of_isFault hfault] at hb
    cases hb
    exact ⟨_, rfl⟩
  · rw [branch?_of_named hnamed hcomment] at hb
    cases hb
    simp [assembled, hkind, Branch.tree?]

theorem inside_declaratorFields (h : n.Orderly) (hkind : n.kind = "variable_declarator")
    (hlaid : Lowered.Laid n.span (lowered n.kind n.children)) :
    ∀ c ∈ (declaratorFields (lowered n.kind n.children)).map (·.2), Inside n.span c := by
  have hfound : ∀ {role b}, inRole? role (lowered n.kind n.children) = some b →
      ∃ c, n.child? role = some c ∧ c.branch? n.kind = some b ∧
        (c, some b) ∈ lowered n.kind n.children := by
    intro role b hb
    rw [inRole?_lowered] at hb
    obtain ⟨c, hc, hb⟩ := Option.bind_eq_some_iff.mp hb
    refine ⟨c, hc, hb, ?_⟩
    rw [lowered_eq_map]
    exact List.mem_map.mpr ⟨c, mem_children_of_child? hc, by rw [hb]⟩
  have hinside : ∀ {role b}, inRole? role (lowered n.kind n.children) = some b →
      Inside n.span b := by
    intro role b hb
    obtain ⟨c, -, -, hmem⟩ := hfound hb
    exact hlaid.inside_of_mem hmem rfl
  unfold declaratorFields
  rw [List.map_append, List.forall_mem_append]
  constructor
  · refine inside_boundName (fun b hb => hinside hb) (fun b hb => hinside hb) ?_
    intro b hb type htype t ht
    obtain ⟨name, hname, -, hnameMem⟩ := hfound hb
    obtain ⟨typeChild, hchild, hbranch, htypeMem⟩ := hfound htype
    have hrole : typeChild.role = some "type" := by simpa using List.find?_some hchild
    obtain ⟨u, hu⟩ := exists_tree?_of_type
      ((h.declares hkind).2 typeChild (mem_children_of_child? hchild) hrole) hbranch
    have hbefore := h.name_before_type hkind hname hchild
    have hnameInside := hlaid.inside _ hnameMem b rfl
    have htypeInside := hlaid.inside _ htypeMem type rfl
    rw [eq_branch_of_tree? ht] at hnameInside
    rw [eq_branch_of_tree? hu] at htypeInside
    obtain ⟨⟨-, hproper⟩, -, hstop⟩ := hnameInside.span_of_node
    have hstart := htypeInside.span_of_node.2.1
    refine ⟨u, hu, ?_⟩
    simp only [span] at hstop hstart
    omega
  · cases hvalue : inRole? "value" (lowered n.kind n.children) with
    | none => simp
    | some value => simpa using hinside hvalue

/-- What becomes of a construct lies in its bytes, if what becomes of its children does. -/
theorem inside_assembled (h : n.Orderly) (parent : String)
    (hlaid : Lowered.Laid n.span (lowered n.kind n.children)) :
    Inside n.span (n.assembled parent (lowered n.kind n.children)) := by
  have hproper : n.span.Proper := ⟨Nat.succ_pos _, Nat.succ_le_succ h.start_le_stop⟩
  unfold assembled
  split
  next =>
    refine .group (inside_classMembers hlaid (waits_nil n.span n.span.start) hproper.2 ?_ (by simp))
    exact fun child hchild => (hlaid.within child hchild).1
  next => exact .group (inside_fieldsOf _ hlaid)
  next => exact .group (inside_fieldsOf _ hlaid)
  next => exact .group (inside_fieldsOf _ hlaid)
  next hkind => exact .node hproper (.refl _) (inside_declaratorFields h hkind hlaid)
  next => exact .node hproper (.refl _) (inside_fieldsOf _ hlaid)

/-- What becomes of a node lies in the bytes of the node. -/
theorem inside_branch? (n : Concrete) (h : n.Orderly) (parent : String) (b : Branch)
    (hb : n.branch? parent = some b) : Inside n.span b := by
  have hkept : n.isDropped = false := isSome_branch?_iff.mp (Option.isSome_of_eq_some hb)
  rcases isDropped_eq_false_iff.mp hkept with hfault | ⟨hnamed, hcomment⟩
  · rw [branch?_of_isFault hfault] at hb
    cases hb
    exact .node ⟨Nat.succ_pos _, Nat.succ_le_succ h.start_le_stop⟩ (.refl _) (by simp)
  · rw [branch?_of_named hnamed hcomment] at hb
    cases hb
    refine inside_assembled h parent (h.laid n.kind ?_)
    intro c hc b hb
    exact inside_branch? c (h.child hc) n.kind b hb
termination_by sizeOf n
decreasing_by exact sizeOf_lt_of_mem_children hc

/-- In everything that becomes of an orderly concrete tree, the span of every node starts at the
    first byte or behind it, does not end before it starts, and lies inside that of the nearest node
    around it. -/
theorem branch_nested {n : Concrete} (h : n.Orderly) {parent : String} {b : Branch}
    (hb : n.branch? parent = some b) {p : Address} {t : Tree} (ht : b.node? p = some t) :
    1 ≤ t.span.start ∧ t.span.start ≤ t.span.stop ∧ t.Nested := by
  have hinside := inside_branch? n h parent b hb
  obtain ⟨hpos, hproper⟩ := hinside.proper ht
  obtain ⟨y, hy⟩ := hinside.exists_of_node? ht
  exact ⟨hpos, hproper, hy.nested⟩

/-- The concrete tree of `class A{@d @e m(){let x:T=1}}`. -/
def decoratedClass : Concrete :=
  TypeScript.construct "program" 0 29 [] [
    TypeScript.construct "class_declaration" 0 29 [] [
      (TypeScript.construct "type_identifier" 6 7 ['A'] []).inRole "name",
      (TypeScript.construct "class_body" 7 29 [] [
        TypeScript.construct "decorator" 8 10 [] [
          TypeScript.construct "identifier" 9 10 ['d'] []],
        TypeScript.construct "decorator" 11 13 [] [
          TypeScript.construct "identifier" 12 13 ['e'] []],
        TypeScript.construct "method_definition" 14 28 [] [
          (TypeScript.construct "property_identifier" 14 15 ['m'] []).inRole "name",
          (TypeScript.construct "formal_parameters" 15 17 [] []).inRole "parameters",
          (TypeScript.construct "statement_block" 17 28 [] [
            TypeScript.construct "lexical_declaration" 18 27 [] [
              TypeScript.construct "variable_declarator" 22 27 [] [
                (TypeScript.construct "identifier" 22 23 ['x'] []).inRole "name",
                (TypeScript.construct "type_annotation" 23 25 [] [
                  TypeScript.construct "type_identifier" 24 25 ['T'] []]).inRole "type",
                (TypeScript.construct "number" 26 27 ['1'] []).inRole "value"]]]).inRole "body"]]
        ).inRole "body"]]

/-- The method begins at its first decorator and ends where it did, the name of the variable ends
    with its type, and all nodes lie inside those around them. -/
theorem decoratedClass_nested :
    decoratedClass.Orderly ∧ ∃ b top method name, decoratedClass.branch? "" = some b ∧
      b.node? [] = some top ∧ top.Nested ∧
      b.node? [0, 1, 0] = some method ∧ method.kind = .classMethod ∧
      method.span = { start := 9, stop := 29 } ∧
      b.node? [0, 1, 0, 1, 0, 0, 0] = some name ∧ name.kind = .identifier "x" ∧
      name.span = { start := 23, stop := 26 } := by
  have h : decoratedClass.Orderly := by decide
  refine ⟨h, _, _, _, _, rfl, rfl, ?_, rfl, rfl, rfl, rfl, rfl, rfl⟩
  exact (branch_nested h rfl (p := []) rfl).2.2

end Concrete

end Stepflow
