import Mathlib
import Stepflow.Project.FileTree

/-!
# Walks through folders

A walk comes to a folder before what is in it, and goes through the names in it in ascending order.
So it comes to everything in the order of the names on the way, first difference first.

* `FileTree.Holds`: what names lead to.
* `FileTree.Distinct`: no folder has a name twice.

Results:
* `FileTree.mem_walk_iff`: a walk comes to what names lead to that are not skipped, and to nothing
  else.
* `FileTree.pairwise_walk`: it does so in strict order of the names.
-/

namespace Stepflow.Project.FileTree

/-- The names lead to `found`, from one folder into the next. -/
inductive Holds : FileTree → List String → FileTree → Prop
  | here (item : FileTree) : Holds item [] item
  | into {entries : List (String × FileTree)} {name : String} {item found : FileTree}
      {names : List String} (mem : (name, item) ∈ entries) (rest : Holds item names found) :
      Holds (folder entries) (name :: names) found

theorem holds_nil {item found : FileTree} : Holds item [] found ↔ item = found := by
  constructor
  · rintro ⟨⟩
    rfl
  · rintro rfl
    exact .here item

theorem holds_cons {entries : List (String × FileTree)} {found : FileTree} {name : String}
    {names : List String} :
    Holds (folder entries) (name :: names) found ↔
      ∃ item, (name, item) ∈ entries ∧ Holds item names found := by
  constructor
  · rintro (_ | ⟨mem, rest⟩)
    exact ⟨_, mem, rest⟩
  · rintro ⟨item, mem, rest⟩
    exact .into mem rest

/-- No folder has a name twice. -/
inductive Distinct : FileTree → Prop
  | file (size : Nat) : Distinct (file size)
  | folder {entries : List (String × FileTree)} (nodup : (entries.map (·.1)).Nodup)
      (below : ∀ entry ∈ entries, Distinct entry.2) : Distinct (folder entries)
  | other : Distinct other

theorem mem_inOrder {entries : List (String × FileTree)} {entry : String × FileTree} :
    entry ∈ inOrder entries ↔ entry ∈ entries :=
  List.mem_mergeSort

/-- What holds of files, and of a folder if it holds of all that is in it, holds of all trees. -/
theorem entries_induction {motive : FileTree → Prop} (file : ∀ size, motive (file size))
    (folder : ∀ entries, (∀ entry ∈ entries, motive entry.2) → motive (folder entries))
    (other : motive other) : ∀ item, motive item
  | .file size => file size
  | .folder entries => folder entries fun entry _ => entries_induction file folder other entry.2
  | .other => other
termination_by item => sizeOf item
decreasing_by exact sizeOf_lt_of_mem_inOrder (mem_inOrder.mpr ‹_›)

theorem pairwise_inOrder {entries : List (String × FileTree)}
    (h : (entries.map (·.1)).Nodup) : (inOrder entries).Pairwise fun x y => x.1 < y.1 := by
  have hsorted : (inOrder entries).Pairwise fun x y => !decide (y.1 < x.1) := by
    apply List.pairwise_mergeSort
    · intro x y z hxy hyz
      simp only [Bool.not_eq_true', decide_eq_false_iff_not, not_lt] at hxy hyz ⊢
      exact hxy.trans hyz
    · intro x y
      simp only [Bool.or_eq_true, Bool.not_eq_true', decide_eq_false_iff_not, not_lt]
      exact le_total x.1 y.1
  have hnodup : ((inOrder entries).map (·.1)).Nodup :=
    ((List.mergeSort_perm _ _).map _).nodup_iff.mpr h
  refine (hsorted.and (List.pairwise_map.mp hnodup)).imp fun ⟨hle, hne⟩ => ?_
  simp only [Bool.not_eq_true', decide_eq_false_iff_not, not_lt] at hle
  exact lt_of_le_of_ne hle hne

/-! ## The walk -/

variable {skip : String → Bool} {names : List String}

theorem walk_folder (skip : String → Bool) (names : List String)
    (entries : List (String × FileTree)) :
    (folder entries).walk skip names =
      { names := names, item := folder entries } ::
        (inOrder entries).flatMap fun entry =>
          if skip entry.1 then [] else entry.2.walk skip (names ++ [entry.1]) := by
  rw [walk]
  congr 1
  conv_rhs => rw [← List.attach_map_subtype_val (inOrder entries), List.flatMap_map]

theorem mem_walk_folder {entries : List (String × FileTree)} {e : Entry} :
    e ∈ (folder entries).walk skip names ↔
      e = { names := names, item := folder entries } ∨
        ∃ entry ∈ entries, skip entry.1 = false ∧
          e ∈ entry.2.walk skip (names ++ [entry.1]) := by
  rw [walk_folder, List.mem_cons, List.mem_flatMap]
  simp only [mem_inOrder]
  refine or_congr_right (exists_congr fun entry => and_congr_right fun _ => ?_)
  cases skip entry.1 <;> simp

theorem self_mem_walk (skip : String → Bool) (names : List String) (item : FileTree) :
    { names := names, item := item } ∈ item.walk skip names := by
  cases item <;> simp [walk]

theorem mem_walk_of_holds {item found : FileTree} {below : List String}
    (h : item.Holds below found) (hskip : ∀ name ∈ below, skip name = false)
    (names : List String) : { names := names ++ below, item := found } ∈ item.walk skip names := by
  induction h generalizing names with
  | here item => simpa using self_mem_walk skip names item
  | @into entries name item found below mem rest ih =>
    rw [List.forall_mem_cons] at hskip
    refine mem_walk_folder.mpr (.inr ⟨(name, item), mem, hskip.1, ?_⟩)
    simpa using ih hskip.2 (names ++ [name])

theorem holds_of_mem_walk {item : FileTree} {e : Entry} (h : e ∈ item.walk skip names) :
    ∃ below, e.names = names ++ below ∧ item.Holds below e.item ∧
      ∀ name ∈ below, skip name = false := by
  have hself : ∀ {names item}, e = { names := names, item := item } → ∃ below,
      e.names = names ++ below ∧ item.Holds below e.item ∧ ∀ name ∈ below, skip name = false := by
    rintro names item rfl
    exact ⟨[], by simp, .here item, by simp⟩
  induction item using entries_induction generalizing names with
  | file size =>
    rw [walk] at h
    exact hself (List.mem_singleton.mp h)
  | other =>
    rw [walk] at h
    exact hself (List.mem_singleton.mp h)
  | folder entries ih =>
    rcases mem_walk_folder.mp h with he | ⟨⟨name, item⟩, hentry, hname, he⟩
    · exact hself he
    · obtain ⟨below, hnames, hholds, hskip⟩ := ih _ hentry he
      exact ⟨name :: below, by simpa using hnames, .into hentry hholds,
        List.forall_mem_cons.mpr ⟨hname, hskip⟩⟩

/-- A walk comes to what names lead to that are not skipped, and to nothing else. -/
theorem mem_walk_iff {item : FileTree} {e : Entry} :
    e ∈ item.walk skip names ↔
      ∃ below, e.names = names ++ below ∧ item.Holds below e.item ∧
        ∀ name ∈ below, skip name = false := by
  refine ⟨holds_of_mem_walk, ?_⟩
  rintro ⟨below, hnames, hholds, hskip⟩
  have hmem := mem_walk_of_holds hholds hskip names
  rwa [← hnames] at hmem

/-- A walk comes to everything in strict order of the names. -/
theorem pairwise_walk {item : FileTree} (h : item.Distinct) (names : List String) :
    (item.walk skip names).Pairwise fun e f => List.Lex (· < ·) e.names f.names := by
  induction h generalizing names with
  | file size => simp [walk]
  | other => simp [walk]
  | @folder entries nodup below ih =>
    -- whatever is found behind a name has that name next on the way
    have hnext : ∀ (entry : String × FileTree) (e : Entry),
        e ∈ (if skip entry.1 then [] else entry.2.walk skip (names ++ [entry.1])) →
        ∃ rest, e.names = names ++ entry.1 :: rest := by
      intro entry e he
      split at he
      · cases he
      · obtain ⟨rest, hrest, -⟩ := holds_of_mem_walk he
        exact ⟨rest, by simpa using hrest⟩
    rw [walk_folder, List.pairwise_cons, List.pairwise_flatMap]
    refine ⟨fun e he => ?_, fun entry hentry => ?_, ?_⟩
    · obtain ⟨entry, -, he⟩ := List.mem_flatMap.mp he
      obtain ⟨rest, hrest⟩ := hnext entry e he
      rw [hrest]
      simpa using List.Lex.append_left (· < ·) (List.Lex.nil (a := entry.1) (l := rest)) names
    · split
      · exact .nil
      · exact ih entry (mem_inOrder.mp hentry) _
    · refine (pairwise_inOrder nodup).imp fun {x y} hlt e he f hf => ?_
      obtain ⟨rest, hrest⟩ := hnext x e he
      obtain ⟨rest', hrest'⟩ := hnext y f hf
      rw [hrest, hrest']
      exact List.Lex.append_left (· < ·) (.rel hlt) names

end Stepflow.Project.FileTree
