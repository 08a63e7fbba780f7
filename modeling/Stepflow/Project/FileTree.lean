/-!
# Trees of files

* `FileTree`: a file, or a folder with all that is in it.
* `Entry`: what a walk comes to.
* `FileTree.walk`: all that a walk comes to, folders before what is in them, and the names in a
  folder in ascending order. Some names are skipped, with all that is below them.
-/

namespace Stepflow.Project

/-- A file with its size in bytes, a folder with the names in it, in any order, or something that is
    neither, such as a link. -/
inductive FileTree where
  | file (size : Nat)
  | folder (entries : List (String × FileTree))
  | other

/-- What a walk comes to: the names on the way to it, and what is there. -/
structure Entry where
  names : List String
  item : FileTree

namespace FileTree

/-- The names in a folder, in ascending order. -/
def inOrder (entries : List (String × FileTree)) : List (String × FileTree) :=
  entries.mergeSort fun x y => !(y.1 < x.1)

theorem sizeOf_lt_of_mem_inOrder {entries : List (String × FileTree)} {entry : String × FileTree}
    (h : entry ∈ inOrder entries) : sizeOf entry.2 < sizeOf (folder entries) := by
  obtain ⟨name, item⟩ := entry
  have hlt := List.sizeOf_lt_of_mem (List.mem_mergeSort.mp h)
  simp only [Prod.mk.sizeOf_spec, folder.sizeOf_spec] at hlt ⊢
  omega

/-- All that a walk comes to that has come here by some names. In a folder it goes on with one name
    after the other, but not with those that are skipped. -/
def walk (skip : String → Bool) (names : List String) : FileTree → List Entry
  | file size => [{ names := names, item := file size }]
  | folder entries =>
    { names := names, item := folder entries } ::
      (inOrder entries).attach.flatMap fun ⟨(name, item), _⟩ =>
        if skip name then [] else item.walk skip (names ++ [name])
  | other => [{ names := names, item := other }]
termination_by item => sizeOf item
decreasing_by
  have hmem : (name, item) ∈ inOrder entries := by assumption
  exact sizeOf_lt_of_mem_inOrder hmem

end FileTree

end Stepflow.Project
