import Mathlib
import Stepflow.Proofs.Outermost
import Stepflow.TypeScript.Source

/-!
# Faults on the way to a tree

A fault of a concrete tree becomes an invalid node, and a source with an invalid node is refused.
All children of a construct go into its tree, with one exception: those of a declared variable are
looked up by their roles. A child without such a role is not looked at, and a fault in it is lost.

* `Branch.HasInvalid`: some node of a branch is invalid.
* `Concrete.kept`: the children that a tree is made of.
* `Concrete.ShowsFault`: a fault that all nodes above it keep.
* `Concrete.HidesFault`: a fault below a node that does not keep it.

Results:
* `anyInvalid_fieldsOf`, `anyInvalid_classMembers`, `anyInvalid_declaratorFields`: which children an
  invalid node comes from.
* `Concrete.lowersInvalid_iff`: a tree has an invalid node if and only if a fault is shown.
* `Concrete.hasFault_iff`: every fault is shown or hidden.
* `TypeScript.extract_refused_iff`: a source is refused if and only if a fault is shown.
* `TypeScript.strayCloser_accepted`: a source with a hidden fault that is not refused.
-/

namespace Stepflow

/-! ## Invalid nodes -/

namespace Branch

/-- Some node of the branch is invalid. -/
def HasInvalid (b : Branch) : Prop :=
  ∃ p t, b.node? p = some t ∧ t.kind = .invalid

/-- The invalid node is the one at the top or lies in a branch directly below. -/
theorem hasInvalid_iff {b : Branch} :
    b.HasInvalid ↔ (∃ t, b.tree? = some t ∧ t.kind = .invalid) ∨ ∃ c ∈ b.parts, c.HasInvalid := by
  constructor
  · rintro ⟨p, t, hp, ht⟩
    cases p with
    | nil => exact .inl ⟨t, hp, ht⟩
    | cons i p =>
      rw [node?_cons] at hp
      obtain ⟨c, hc, hp⟩ := Option.bind_eq_some_iff.mp hp
      exact .inr ⟨c, List.mem_of_getElem? hc, p, t, hp, ht⟩
  · rintro (⟨t, hb, ht⟩ | ⟨c, hc, p, t, hp, ht⟩)
    · exact ⟨[], t, hb, ht⟩
    · obtain ⟨i, hi⟩ := List.mem_iff_getElem?.mp hc
      refine ⟨i :: p, t, ?_, ht⟩
      rw [node?_cons, hi]
      exact hp

/-- Some node of the branches is invalid. -/
def AnyInvalid (bs : List Branch) : Prop :=
  ∃ b ∈ bs, b.HasInvalid

@[simp] theorem anyInvalid_nil : ¬ AnyInvalid [] := by
  simp [AnyInvalid]

@[simp] theorem anyInvalid_cons {b : Branch} {bs : List Branch} :
    AnyInvalid (b :: bs) ↔ b.HasInvalid ∨ AnyInvalid bs := by
  simp [AnyInvalid]

@[simp] theorem anyInvalid_append {bs cs : List Branch} :
    AnyInvalid (bs ++ cs) ↔ AnyInvalid bs ∨ AnyInvalid cs := by
  simp [AnyInvalid, or_and_right, exists_or]

@[simp] theorem hasInvalid_node {kind : Kind} {span : Span} {fields : List (Field × Branch)} :
    (node kind span fields).HasInvalid ↔ kind = .invalid ∨ AnyInvalid (fields.map (·.2)) := by
  rw [hasInvalid_iff, AnyInvalid, parts]
  simp only [tree?, Option.some.injEq, exists_eq_left']

@[simp] theorem hasInvalid_group {entries : List (Field × Branch)} :
    (group entries).HasInvalid ↔ AnyInvalid (entries.map (·.2)) := by
  rw [hasInvalid_iff, AnyInvalid, parts]
  simp only [tree?, reduceCtorEq, false_and, exists_false, false_or]

@[simp] theorem hasInvalid_list {items : List Branch} :
    (list items).HasInvalid ↔ AnyInvalid items := by
  rw [hasInvalid_iff, AnyInvalid, parts]
  simp only [tree?, reduceCtorEq, false_and, exists_false, false_or]

end Branch

open Branch

theorem Tree.hasInvalid_branch_iff {t : Tree} :
    t.branch.HasInvalid ↔ ∃ p : t.NodeAddress, p.node.kind = .invalid := by
  constructor
  · rintro ⟨p, n, hp, hn⟩
    refine ⟨⟨p, Option.isSome_of_eq_some hp⟩, ?_⟩
    rw [← hn]
    congr 1
    exact Option.some.inj ((Tree.NodeAddress.node?_eq _).symm.trans hp)
  · rintro ⟨p, hp⟩
    exact ⟨p.1, p.node, p.node?_eq, hp⟩

/-! ## Children -/

theorem anyInvalid_addChild (field : Field) (child : Branch) (entries : List (Field × Branch)) :
    AnyInvalid ((addChild field child entries).map (·.2)) ↔
      child.HasInvalid ∨ AnyInvalid (entries.map (·.2)) := by
  fun_induction addChild field child entries with
  | case1 => split_ifs <;> simp
  | case2 entries items => simp [or_assoc, or_left_comm]
  | case3 entries b => simp [or_assoc, or_left_comm]
  | case4 f b entries hf ih => simp [ih, or_left_comm]

theorem anyInvalid_lowered_cons (n : Concrete) (b : Branch) (rest : Lowered) :
    AnyInvalid (((n, some b) :: rest).filterMap (·.2)) ↔
      b.HasInvalid ∨ AnyInvalid (rest.filterMap (·.2)) :=
  anyInvalid_cons

/-- Entries to which each turn adds one branch, or none, end up with all of these branches. -/
theorem anyInvalid_foldl {α : Type} (g : α → Option Branch)
    {f : List (Field × Branch) → α → List (Field × Branch)}
    (hf : ∀ entries x, AnyInvalid ((f entries x).map (·.2)) ↔
      (∃ b ∈ g x, b.HasInvalid) ∨ AnyInvalid (entries.map (·.2)))
    (xs : List α) (entries : List (Field × Branch)) :
    AnyInvalid ((xs.foldl f entries).map (·.2)) ↔
      AnyInvalid (xs.filterMap g) ∨ AnyInvalid (entries.map (·.2)) := by
  induction xs generalizing entries with
  | nil => simp
  | cons x xs ih =>
    rw [List.foldl_cons, ih, hf]
    cases hx : g x with
    | none => simp [hx]
    | some b => simp [hx, or_assoc, or_left_comm]

/-- All that became of the children goes into the fields. -/
theorem anyInvalid_fieldsOf (parent : String) (children : Lowered) :
    AnyInvalid ((fieldsOf parent children).map (·.2)) ↔ AnyInvalid (children.filterMap (·.2)) := by
  refine (anyInvalid_foldl (·.2) ?_ children []).trans ?_
  · intro entries child
    obtain ⟨n, b?⟩ := child
    cases b? with
    | none => simp
    | some b => simp [anyInvalid_addChild]
  · simp

theorem hasInvalid_decorated (decorators : List (Span × Branch)) (kind : Kind) (span : Span)
    (fields : List (Field × Branch)) :
    (decorated decorators (.node kind span fields)).HasInvalid ↔
      AnyInvalid (decorators.map (·.2)) ∨ (node kind span fields).HasInvalid := by
  simp only [decorated, hasInvalid_node, List.map_append, List.map_map, Function.comp_def,
    anyInvalid_append]
  tauto

/-- Decorators go to the next member, or stay at the end if there is none. -/
theorem anyInvalid_classMembers (decorators : List (Span × Branch))
    (entries : List (Field × Branch)) (children : Lowered) :
    AnyInvalid ((classMembers decorators entries children).map (·.2)) ↔
      AnyInvalid (decorators.map (·.2)) ∨ AnyInvalid (entries.map (·.2)) ∨
        AnyInvalid (children.filterMap (·.2)) := by
  fun_induction classMembers decorators entries children with
  | case1 decorators entries =>
    refine (anyInvalid_foldl (fun d => some d.2) ?_ decorators entries).trans ?_
    · simp [anyInvalid_addChild]
    · simp
  | case2 decorators entries n rest ih =>
    rw [ih]
    simp
  | case3 decorators entries n kind span fields rest member hn ih =>
    have hwaiting : AnyInvalid ((decorators ++ [(span, member)]).map (·.2)) ↔
        AnyInvalid (decorators.map (·.2)) ∨ member.HasInvalid := by
      rw [List.map_append, anyInvalid_append, List.map_singleton, anyInvalid_cons]
      simp only [anyInvalid_nil, or_false]
    rw [ih, hwaiting, anyInvalid_lowered_cons]
    tauto
  | case4 decorators entries n kind span fields rest member hn ih =>
    rw [ih, anyInvalid_addChild, hasInvalid_decorated, anyInvalid_lowered_cons]
    simp only [List.map_nil, anyInvalid_nil, false_or]
    tauto
  | case5 decorators entries n wrapper rest hwrapper ih =>
    rw [ih, anyInvalid_addChild, anyInvalid_lowered_cons]
    tauto

/-- A type is kept only together with a name. -/
theorem anyInvalid_boundName (name type? : Option Branch) :
    AnyInvalid ((boundName name type?).map (·.2)) ↔
      (∃ b ∈ name, b.HasInvalid) ∨ name.isSome ∧ ∃ b ∈ type?, b.HasInvalid := by
  unfold boundName
  split
  · cases type? <;> simp
  · cases type? <;> simp
  · simp

theorem anyInvalid_declaratorFields (children : Lowered) :
    AnyInvalid ((declaratorFields children).map (·.2)) ↔
      (∃ b ∈ inRole? "name" children, b.HasInvalid) ∨
        ((inRole? "name" children).isSome ∧ ∃ b ∈ inRole? "type" children, b.HasInvalid) ∨
        ∃ b ∈ inRole? "value" children, b.HasInvalid := by
  rw [declaratorFields, List.map_append, anyInvalid_append, anyInvalid_boundName, or_assoc]
  cases inRole? "value" children <;> simp

/-! ## Nodes -/

namespace Concrete

/-- Nothing is left of the node: it is punctuation or a comment. -/
def isDropped (n : Concrete) : Bool :=
  match n.standing with
  | .error | .missing => false
  | .punctuation => true
  | .named => n.kind == "comment"

/-- The children that the tree of a construct is made of. For a declared variable these are its
    name, its value and, next to a name, its type. -/
def kept (n : Concrete) : List Concrete :=
  if n.kind = "variable_declarator" then
    (n.child? "name").toList ++
      (if (n.child? "name").any (!·.isDropped) then (n.child? "type").toList else []) ++
      (n.child? "value").toList
  else n.children

/-- The node is a fault, or one of the children that it keeps shows one. -/
inductive ShowsFault : Concrete → Prop
  | self {n : Concrete} (h : n.isFault = true) : ShowsFault n
  | child {n c : Concrete} (hn : n.standing = .named) (hcomment : n.kind ≠ "comment")
      (hc : c ∈ n.kept) (h : ShowsFault c) : ShowsFault n

/-- Somewhere in the tree there is a node with a fault in a child that it does not keep. -/
inductive HidesFault : Concrete → Prop
  | self {n c : Concrete} (hc : c ∈ n.children) (h : HasFault c)
      (hlost : n.isDropped = true ∨ c ∉ n.kept) : HidesFault n
  | child {n c : Concrete} (hc : c ∈ n.children) (h : HidesFault c) : HidesFault n

theorem mem_children_of_child? {n c : Concrete} {role : String} (h : n.child? role = some c) :
    c ∈ n.children :=
  List.mem_of_find?_eq_some h

theorem mem_children_of_mem_kept {n c : Concrete} (h : c ∈ n.kept) : c ∈ n.children := by
  unfold kept at h
  split_ifs at h
  · simp only [List.mem_append, Option.mem_toList] at h
    rcases h with (h | h) | h
    · exact mem_children_of_child? h
    · exact mem_children_of_child? h
    · exact mem_children_of_child? h
  · simp only [List.append_nil, List.mem_append, Option.mem_toList] at h
    rcases h with h | h
    · exact mem_children_of_child? h
    · exact mem_children_of_child? h
  · exact h

theorem isDropped_eq_false_iff {n : Concrete} :
    n.isDropped = false ↔ n.isFault = true ∨ n.standing = .named ∧ n.kind ≠ "comment" := by
  unfold isDropped isFault
  cases n.standing <;> simp

/-- Every fault is shown or hidden. -/
theorem hasFault_iff {n : Concrete} : n.HasFault ↔ n.ShowsFault ∨ n.HidesFault := by
  constructor
  · intro h
    induction h with
    | self h => exact .inl (.self h)
    | @child n c hc h ih =>
      rcases ih with hshows | hhides
      · by_cases hlost : n.isDropped = true ∨ c ∉ n.kept
        · exact .inr (.self hc h hlost)
        · obtain ⟨hdropped, hkept⟩ := not_or.mp hlost
          rcases isDropped_eq_false_iff.mp (by simpa using hdropped) with hfault | ⟨hn, hcomment⟩
          · exact .inl (.self hfault)
          · exact .inl (.child hn hcomment (not_not.mp hkept) hshows)
      · exact .inr (.child hc hhides)
  · rintro (h | h)
    · induction h with
      | self h => exact .self h
      | child _ _ hc _ ih => exact .child (mem_children_of_mem_kept hc) ih
    · induction h with
      | self hc h _ => exact .child hc h
      | child hc _ ih => exact .child hc ih

theorem methodKind_ne_invalid (parent : String) (n : Concrete) :
    n.methodKind parent ≠ .invalid := by
  unfold methodKind
  split_ifs
  · split
    · split_ifs <;> simp
    · simp
  · simp

theorem kindIn_ne_invalid (parent : String) (n : Concrete) : n.kindIn parent ≠ .invalid := by
  unfold kindIn
  split
  case h_4 => exact methodKind_ne_invalid parent n
  case h_21 => split_ifs <;> simp
  all_goals simp

theorem lowered_eq_map (parent : String) (children : List Concrete) :
    lowered parent children = children.map fun c => (c, c.branch? parent) := by
  induction children with
  | nil => rfl
  | cons c children ih => rw [lowered, ih, List.map_cons]

/-- What becomes of the first child with a role is what is found for the role. -/
theorem inRole?_lowered (parent role : String) (n : Concrete) :
    inRole? role (lowered parent n.children) = (n.child? role).bind (·.branch? parent) := by
  rw [inRole?, lowered_eq_map, List.find?_map, child?]
  simp only [Function.comp_def, Option.bind_map]

/-- What becomes of a node has an invalid node in it. -/
def LowersInvalid (parent : String) (n : Concrete) : Prop :=
  ∃ b ∈ n.branch? parent, b.HasInvalid

theorem anyInvalid_lowered (parent : String) (children : List Concrete) :
    AnyInvalid ((lowered parent children).filterMap (·.2)) ↔
      ∃ c ∈ children, c.LowersInvalid parent := by
  rw [lowered_eq_map, List.filterMap_map, AnyInvalid]
  simp only [List.mem_filterMap, Function.comp_apply, LowersInvalid, Option.mem_def]
  constructor
  · rintro ⟨b, ⟨c, hc, hb⟩, h⟩
    exact ⟨c, hc, b, hb, h⟩
  · rintro ⟨c, hc, b, hb, h⟩
    exact ⟨b, ⟨c, hc, hb⟩, h⟩

theorem branch?_of_isFault {n : Concrete} (h : n.isFault = true) (parent : String) :
    n.branch? parent = some (leaf .invalid n.span) := by
  obtain ⟨kind, standing, role, start, stop, text, children⟩ := n
  cases standing with
  | error | missing => rfl
  | named | punctuation => cases h

theorem branch?_of_named {n : Concrete} (hn : n.standing = .named) (hcomment : n.kind ≠ "comment")
    (parent : String) :
    n.branch? parent = some (n.assembled parent (lowered n.kind n.children)) := by
  obtain ⟨kind, standing, role, start, stop, text, children⟩ := n
  subst hn
  rw [branch?]
  exact if_neg hcomment

theorem branch?_of_isDropped {n : Concrete} (h : n.isDropped = true) (parent : String) :
    n.branch? parent = none := by
  obtain ⟨kind, standing, role, start, stop, text, children⟩ := n
  cases standing with
  | error | missing => cases h
  | punctuation => rfl
  | named =>
    rw [branch?]
    exact if_pos (eq_of_beq h)

theorem isSome_branch?_iff {n : Concrete} {parent : String} :
    (n.branch? parent).isSome ↔ n.isDropped = false := by
  constructor
  · intro h
    by_contra hdropped
    rw [branch?_of_isDropped (by simpa using hdropped)] at h
    cases h
  · intro h
    rcases isDropped_eq_false_iff.mp h with hfault | ⟨hn, hcomment⟩
    · rw [branch?_of_isFault hfault]
      rfl
    · rw [branch?_of_named hn hcomment]
      rfl

/-- A construct has the invalid nodes of the children that it keeps, and no others. -/
theorem hasInvalid_assembled_iff (parent : String) (n : Concrete) :
    (n.assembled parent (lowered n.kind n.children)).HasInvalid ↔
      ∃ c ∈ n.kept, c.LowersInvalid n.kind := by
  by_cases hdeclarator : n.kind = "variable_declarator"
  · have hname : (inRole? "name" (lowered n.kind n.children)).isSome ↔
        (n.child? "name").any (!·.isDropped) = true := by
      rw [inRole?_lowered]
      cases n.child? "name" with
      | none => simp
      | some name => simpa using isSome_branch?_iff
    have hrole : ∀ role, (∃ b ∈ inRole? role (lowered n.kind n.children), b.HasInvalid) ↔
        ∃ c ∈ n.child? role, c.LowersInvalid n.kind := by
      intro role
      rw [inRole?_lowered]
      cases n.child? role <;> simp [LowersInvalid]
    have hfields := anyInvalid_declaratorFields (lowered n.kind n.children)
    rw [hname, hrole, hrole, hrole] at hfields
    have hassembled : n.assembled parent (lowered n.kind n.children) =
        .node .variableDeclarator n.span (declaratorFields (lowered n.kind n.children)) := by
      unfold assembled
      split <;> simp_all
    rw [hassembled, hasInvalid_node, hfields, kept, if_pos hdeclarator]
    split_ifs with hkeeps
    · simp [hkeeps, or_and_right, exists_or]
    · simp [hkeeps, or_and_right, exists_or]
  · rw [kept, if_neg hdeclarator, ← anyInvalid_lowered]
    unfold assembled
    split
    · simp [anyInvalid_classMembers]
    · rw [hasInvalid_group, anyInvalid_fieldsOf]
    · rw [hasInvalid_group, anyInvalid_fieldsOf]
    · rw [hasInvalid_group, anyInvalid_fieldsOf]
    · contradiction
    · simp [anyInvalid_fieldsOf, kindIn_ne_invalid]

theorem lowersInvalid_iff_of_named {n : Concrete} (hn : n.standing = .named)
    (hcomment : n.kind ≠ "comment") (parent : String) :
    n.LowersInvalid parent ↔ ∃ c ∈ n.kept, c.LowersInvalid n.kind := by
  rw [LowersInvalid, branch?_of_named hn hcomment, ← hasInvalid_assembled_iff parent]
  simp

theorem sizeOf_lt_of_mem_children {n c : Concrete} (h : c ∈ n.children) : sizeOf c < sizeOf n := by
  have hlt := List.sizeOf_lt_of_mem h
  obtain ⟨kind, standing, role, start, stop, text, children⟩ := n
  simp only [mk.sizeOf_spec]
  simp only at hlt
  omega

/-- A tree has an invalid node if and only if a fault is shown. -/
theorem lowersInvalid_iff (n : Concrete) (parent : String) :
    n.LowersInvalid parent ↔ n.ShowsFault := by
  constructor
  · intro h
    by_cases hdropped : n.isDropped = true
    · rw [LowersInvalid, branch?_of_isDropped hdropped] at h
      simp at h
    · rcases isDropped_eq_false_iff.mp (by simpa using hdropped) with hfault | ⟨hn, hcomment⟩
      · exact .self hfault
      · obtain ⟨c, hc, h⟩ := (lowersInvalid_iff_of_named hn hcomment parent).mp h
        exact .child hn hcomment hc ((lowersInvalid_iff c n.kind).mp h)
  · intro h
    induction h generalizing parent with
    | self hfault => exact ⟨_, branch?_of_isFault hfault parent, by simp [leaf]⟩
    | child hn hcomment hc _ ih =>
      exact (lowersInvalid_iff_of_named hn hcomment parent).mpr ⟨_, hc, ih _⟩
termination_by sizeOf n
decreasing_by exact sizeOf_lt_of_mem_children (mem_children_of_mem_kept hc)

theorem tree?_eq_some_iff {n : Concrete} {t : Tree} :
    n.tree? = some t ↔ n.branch? "" = some t.branch := by
  unfold tree?
  constructor
  · intro h
    split at h
    · next hbranch =>
      obtain rfl := Option.some.inj h
      exact hbranch
    · cases h
  · intro h
    rw [h]
    rfl

theorem showsFault_iff_of_tree? {n : Concrete} {t : Tree} (h : n.tree? = some t) :
    n.ShowsFault ↔ ∃ p : t.NodeAddress, p.node.kind = .invalid := by
  rw [← lowersInvalid_iff n "", LowersInvalid, tree?_eq_some_iff.mp h, ← Tree.hasInvalid_branch_iff]
  simp

end Concrete

/-! ## Sources -/

namespace TypeScript

open Text Source

/-- Extraction from a concrete tree fails if there is no tree, or an invalid one. -/
theorem extract_readerOf_eq_error_iff (concrete : Options → List Char → Concrete) (source : String)
    {n : Concrete} (hconcrete : concrete .standard (unifyLineEnds source.toList) = n)
    (hn : ∀ t, n.tree? = some t → t.Nested) :
    (∃ e, Source.extract (readerOf concrete) source = .error e) ↔
      n.tree? = none ∨ n.ShowsFault := by
  cases htree : n.tree? with
  | none =>
    refine iff_of_true ⟨.parse "source did not produce a program node" (some 0), ?_⟩ (.inl rfl)
    simp only [Source.extract, readerOf, String.toList_ofList, hconcrete, htree]
    rfl
  | some t =>
    have hread : readerOf concrete .standard (String.ofList (unifyLineEnds source.toList)) =
        .ok t := by
      simp only [readerOf, String.toList_ofList, hconcrete, htree]
    have hvalid := validate_eq_ok_iff (unifyLineEnds source.toList) (hn t htree)
    rw [← not_exists, ← Concrete.showsFault_iff_of_tree? htree] at hvalid
    simp only [extract_eq_error_iff hread, reduceCtorEq, false_or]
    cases hvalidate : validate (Arena.ofTree t (unifyLineEnds source.toList))
        (unifyLineEnds source.toList) with
    | ok _ => simpa using hvalid.mp hvalidate
    | error e =>
      refine iff_of_true ⟨e, rfl⟩ (not_not.mp fun hshows => ?_)
      cases hvalidate.symm.trans (hvalid.mpr hshows)

/-- A fault becomes an invalid node if and only if it is shown. Every fault is shown unless some
    node above it does not keep the child in which it lies. If every node of the tree lies inside
    the node that holds it, then it is the faults that are shown that lead to a refusal of the
    source. -/
theorem extract_refused_iff (n : Concrete) :
    (n.HasFault ↔ n.ShowsFault ∨ n.HidesFault) ∧
    (∀ parent, (∃ b p t, n.branch? parent = some b ∧ b.node? p = some t ∧ t.kind = .invalid) ↔
      n.ShowsFault) ∧
    ∀ (concrete : Options → List Char → Concrete) (source : String),
      concrete .standard (unifyLineEnds source.toList) = n →
      (∀ t, n.tree? = some t → t.Nested) →
      ((∃ e, Source.extract (readerOf concrete) source = .error e) ↔
        n.tree? = none ∨ n.ShowsFault) := by
  refine ⟨Concrete.hasFault_iff, fun parent => ?_, fun concrete source hconcrete hn =>
    extract_readerOf_eq_error_iff concrete source hconcrete hn⟩
  rw [← n.lowersInvalid_iff parent]
  constructor
  · rintro ⟨b, p, t, hb, hp, ht⟩
    exact ⟨b, hb, p, t, hp, ht⟩
  · rintro ⟨b, hb, p, t, hp, ht⟩
    exact ⟨b, p, t, hb, hp, ht⟩

/-- The concrete tree of a class that holds nothing but a decorator with a fault in it. -/
def brokenDecorator : Concrete :=
  construct "program" 0 12 [] [
    construct "class_declaration" 0 12 [] [
      (construct "type_identifier" 6 7 ['A'] []).inRole "name",
      (construct "class_body" 7 12 [] [
        construct "decorator" 8 11 [] [
          construct "identifier" 9 10 ['d'] [],
          fault 10 11]]).inRole "body"]]

/-- The source of the class. -/
def brokenDecoratorSource : String :=
  "class A\x7b@d)\x7d"

theorem brokenDecorator_refused :
    (∀ t, brokenDecorator.tree? = some t → t.Nested) ∧ brokenDecorator.ShowsFault ∧
      ∃ e, Source.extract (readerOf fun _ _ => brokenDecorator) brokenDecoratorSource =
        .error e := by
  have hnested : (brokenDecorator.tree?.all fun t => decide t.Nested) = true := by decide
  have hn : ∀ t, brokenDecorator.tree? = some t → t.Nested := by
    intro t ht
    rw [ht] at hnested
    simpa using hnested
  obtain ⟨-, hinvalid, hrefused⟩ := extract_refused_iff brokenDecorator
  have hshows : brokenDecorator.ShowsFault :=
    (hinvalid "").mp ⟨_, [0, 1, 0, 0, 1], _, rfl, rfl, rfl⟩
  exact ⟨hn, hshows,
    (hrefused (fun _ _ => brokenDecorator) brokenDecoratorSource rfl hn).mpr (.inr hshows)⟩

/-- The concrete tree of `var total) = 1;`. The fault is a child of the declared variable and has no
    role in it. -/
def strayCloser : Concrete :=
  construct "program" 0 16 [] [
    construct "variable_declaration" 0 15 [] [
      construct "variable_declarator" 4 14 [] [
        (construct "identifier" 4 9 ['t', 'o', 't', 'a', 'l'] []).inRole "name",
        fault 9 10,
        (construct "number" 13 14 ['1'] []).inRole "value"]]]

/-- A fault that is not shown leaves no invalid node and does not lead to a refusal. -/
theorem strayCloser_accepted :
    strayCloser.HasFault ∧
      (¬ ∃ b p t, strayCloser.branch? "" = some b ∧ b.node? p = some t ∧ t.kind = .invalid) ∧
      ∃ e, Source.extract (readerOf fun _ _ => strayCloser) "var total) = 1;\n" = .ok e := by
  have hfault : strayCloser.HasFault :=
    .child (List.mem_singleton_self _) <| .child (List.mem_singleton_self _) <|
      .child (List.mem_cons_of_mem _ List.mem_cons_self) (.self rfl)
  have hvalid : (strayCloser.tree?.all fun t =>
      decide (t.Nested ∧ ∀ p : t.NodeAddress, p.node.kind ≠ .invalid)) = true := by decide
  obtain ⟨t, ht⟩ : ∃ t, strayCloser.tree? = some t := ⟨_, rfl⟩
  rw [ht, Option.all_some, decide_eq_true_iff] at hvalid
  have hhidden : ¬ strayCloser.ShowsFault := by
    rw [Concrete.showsFault_iff_of_tree? ht]
    rintro ⟨p, hp⟩
    exact hvalid.2 p hp
  refine ⟨hfault, ?_, ?_⟩
  · rintro ⟨b, p, t, hb, hp, ht⟩
    exact hhidden ((strayCloser.lowersInvalid_iff "").mp ⟨b, hb, p, t, hp, ht⟩)
  · have hn : ∀ t', strayCloser.tree? = some t' → t'.Nested := by
      intro t' ht'
      exact Option.some.inj (ht.symm.trans ht') ▸ hvalid.1
    have hrefused := extract_readerOf_eq_error_iff (fun _ _ => strayCloser)
      "var total) = 1;\n" rfl hn
    cases hextract : Source.extract (readerOf fun _ _ => strayCloser) "var total) = 1;\n" with
    | ok e => exact ⟨e, rfl⟩
    | error e =>
      rcases hrefused.mp ⟨e, hextract⟩ with hnone | hshows
      · cases ht.symm.trans hnone
      · exact absurd hshows hhidden

end TypeScript

end Stepflow
