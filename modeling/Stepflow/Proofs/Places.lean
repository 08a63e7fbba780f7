import Mathlib.Data.List.Infix
import Mathlib.Tactic.MkIffOfInductiveProp
import Stepflow.Project.Config
import Stepflow.Project.Files
import Stepflow.Proofs.Words

/-!
# Places

What the operations on files in memory leave at each place, and which places a written path leads
through.

* `Files.Rooted`: whatever is there is in a folder.
* `onward`: the place one name further, whatever is there.
* `Files.Leads`: a way along names on which every place is a folder.
* `Files.look`: what a written path leads to.
* `stem`: the names with which the paths below a root begin.

Results:
* `item?_put`, `item?_remove`: what is at a place after a change.
* `locate_eq_ok_iff`: a path is located by its names alone, if its way leads through folders.
* `names_joinPath`: the names of a path below a root.
* `look_eq_of_kept`: a path leads to the same thing as long as folders stay.
-/

namespace Stepflow.Project

namespace Files

variable {fs fs' : Files} {place : Place} {item : Item}

/-! ## Items -/

@[simp] theorem item?_nil : fs.item? [] = some .folder := rfl

theorem item?_eq_lookup (h : place ≠ []) : fs.item? place = fs.items.lookup place := by
  cases place with
  | nil => exact absurd rfl h
  | cons name place => rfl

theorem lookup_filter (keep : Place → Bool) (items : List (Place × Item)) (place : Place) :
    (items.filter fun entry => keep entry.1).lookup place =
      if keep place then items.lookup place else none := by
  induction items with
  | nil => simp
  | cons entry items ih =>
    obtain ⟨key, item⟩ := entry
    by_cases hkey : place = key
    · subst hkey
      cases hkeep : keep place with
      | true => simp [hkeep]
      | false => simpa [hkeep] using ih
    · have hne : (place == key) = false := by simpa using hkey
      cases hkeep : keep key with
      | true => simpa [hkeep, List.lookup_cons, hne] using ih
      | false => simpa [hkeep, List.lookup_cons, hne] using ih

theorem item?_put (h : place ≠ []) (item : Item) (other : Place) :
    (fs.put place item).item? other = if other = place then some item else fs.item? other := by
  by_cases hother : other = []
  · simp [hother, Ne.symm h]
  · rw [item?_eq_lookup hother, item?_eq_lookup hother, put, List.lookup_cons]
    by_cases heq : other = place
    · simp [heq]
    · have hne : (other == place) = false := by simpa using heq
      simp [heq, hne, lookup_filter (fun key => key != place)]

theorem item?_remove (h : place ≠ []) (other : Place) :
    (fs.remove place).item? other = if place <+: other then none else fs.item? other := by
  by_cases hother : other = []
  · simp [hother, h]
  · rw [item?_eq_lookup hother, item?_eq_lookup hother, remove,
      lookup_filter (fun key => !place.isPrefixOf key)]
    by_cases hpre : place <+: other <;> simp [hpre]

/-- Whatever is there is in a folder. -/
def Rooted (fs : Files) : Prop :=
  ∀ place name, (fs.item? (place ++ [name])).isSome → fs.item? place = some .folder

theorem mem_items_of_lookup (h : fs.items.lookup place = some item) : (place, item) ∈ fs.items := by
  obtain ⟨before, after, heq, -⟩ := List.lookup_eq_some_iff.mp h
  simp [heq]

theorem rooted_of_items (h : ∀ entry ∈ fs.items, fs.item? entry.1.dropLast = some .folder) :
    fs.Rooted := by
  intro place name hsome
  rw [item?_eq_lookup (by simp)] at hsome
  obtain ⟨item, hitem⟩ := Option.isSome_iff_exists.mp hsome
  simpa using h _ (mem_items_of_lookup hitem)

/-- What is put into a folder is in a folder, and so is everything else, unless a folder with
    something in it gets lost. -/
theorem Rooted.put (h : fs.Rooted) {name : String} (hfolder : fs.item? place = some .folder)
    (hkeep : fs.item? (place ++ [name]) = some .folder → item = .folder) :
    (fs.put (place ++ [name]) item).Rooted := by
  have hne : place ++ [name] ≠ [] := by simp
  intro other name' hsome
  have hother : fs.item? other = some .folder := by
    rw [item?_put hne] at hsome
    split at hsome
    · rename_i heq
      rw [(List.append_inj' heq rfl).1]
      exact hfolder
    · exact h other name' hsome
  rw [item?_put hne]
  split
  · rename_i heq
    rw [hkeep (heq ▸ hother)]
  · exact hother

/-- All places around something that is there are folders. -/
theorem Rooted.folder_of_isPrefix (h : fs.Rooted) {other : Place} (hpre : place <+: other)
    (hne : place ≠ other) (hsome : (fs.item? other).isSome) : fs.item? place = some .folder := by
  induction other using List.reverseRecOn with
  | nil => exact absurd (List.prefix_nil.mp hpre) hne
  | append_singleton other name ih =>
    have hother := h other name hsome
    rcases List.prefix_concat_iff.mp hpre with heq | hpre
    · exact absurd heq hne
    · by_cases heq : place = other
      · rw [heq]
        exact hother
      · exact ih hpre heq (by simp [hother])

/-! ## Ways -/

end Files

/-- The place one name further, whatever is there. -/
def onward (place : Place) (name : String) : Place :=
  if name.isEmpty || name == "." then place
  else if name == ".." then place.dropLast
  else place ++ [name]

/-- A name that leads into a folder: the parts of a written path between its separators, but those
    that stand for the folder itself and the one around it. -/
@[mk_iff]
structure Proper (name : String) : Prop where
  ne_empty : name ≠ ""
  ne_here : name ≠ "."
  ne_up : name ≠ ".."
  plain : '/' ∉ name.toList

instance : DecidablePred Proper :=
  fun name => decidable_of_iff' _ (proper_iff name)

theorem onward_proper {name : String} (h : Proper name) (place : Place) :
    onward place name = place ++ [name] := by
  simp [onward, h.ne_empty, h.ne_here, h.ne_up]

theorem foldl_onward_proper {names : List String} (h : ∀ name ∈ names, Proper name)
    (place : Place) : names.foldl onward place = place ++ names := by
  induction names generalizing place with
  | nil => simp
  | cons name names ih =>
    rw [List.foldl_cons, onward_proper (h name List.mem_cons_self),
      ih fun name' hname' => h name' (List.mem_cons_of_mem _ hname')]
    simp

/-- Without `..` a way only gets longer. -/
theorem isPrefix_foldl_onward {names : List String} (h : ".." ∉ names) (place : Place) :
    place <+: names.foldl onward place := by
  induction names generalizing place with
  | nil => exact List.prefix_rfl
  | cons name names ih =>
    simp only [List.mem_cons, not_or] at h
    refine .trans ?_ (ih h.2 (onward place name))
    rw [onward]
    split
    · exact List.prefix_rfl
    · rw [if_neg (by simpa using Ne.symm h.1)]
      exact List.prefix_append place [name]

namespace Files

variable {fs fs' : Files} {place : Place} {item : Item} {names : List String}

/-- Every place on the way along the names, up to the last but one, is a folder. -/
def Leads (fs : Files) : Place → List String → Prop
  | _, [] => True
  | place, name :: names => fs.item? place = some .folder ∧ fs.Leads (onward place name) names

@[simp] theorem leads_nil : fs.Leads place [] := by
  rw [Leads]
  trivial

theorem leads_cons {name : String} : fs.Leads place (name :: names) ↔
    fs.item? place = some .folder ∧ fs.Leads (onward place name) names := by
  rw [Leads]

-- a way along the names of a path is not to be unfolded by taking the path apart
attribute [irreducible] Leads

theorem leads_append {before after : List String} :
    fs.Leads place (before ++ after) ↔
      fs.Leads place before ∧ fs.Leads (before.foldl onward place) after := by
  induction before generalizing place with
  | nil => simp
  | cons name before ih => simp [leads_cons, ih, and_assoc]

theorem Leads.mono (hfolders : ∀ p, fs.item? p = some .folder → fs'.item? p = some .folder)
    (h : fs.Leads place names) : fs'.Leads place names := by
  induction names generalizing place with
  | nil => exact leads_nil
  | cons name names ih =>
    rw [leads_cons] at h ⊢
    exact ⟨hfolders place h.1, ih h.2⟩

theorem leads_proper (hproper : ∀ name ∈ names, Proper name) (h : fs.Rooted)
    (hsome : (fs.item? (place ++ names)).isSome) : fs.Leads place names := by
  induction names generalizing place with
  | nil => exact leads_nil
  | cons name names ih =>
    rw [leads_cons, onward_proper (hproper name List.mem_cons_self)]
    constructor
    · refine h.folder_of_isPrefix (List.prefix_append place _) (fun heq => ?_) hsome
      simpa using congrArg List.length heq
    · exact ih (fun name' hname' => hproper name' (List.mem_cons_of_mem _ hname'))
        (by simpa using hsome)

/-- From a folder, a place without anything is only reached by a name of its own. -/
theorem Rooted.onward_of_none (h : fs.Rooted) {name : String}
    (hfolder : fs.item? place = some .folder) (hnone : fs.item? (onward place name) = none) :
    onward place name = place ++ [name] := by
  have hup : fs.item? place.dropLast = some .folder := by
    cases place using List.reverseRecOn with
    | nil => rfl
    | append_singleton place last =>
      rw [List.dropLast_concat]
      exact h place last (by simp [hfolder])
  rw [onward] at hnone ⊢
  split at hnone
  · rw [hfolder] at hnone
    cases hnone
  · rename_i hhere
    split at hnone
    · rw [hup] at hnone
      cases hnone
    · rename_i hname
      rw [if_neg hhere, if_neg hname]

theorem enter_eq_ok_iff {other : Place} :
    fs.enter place = .ok other ↔ fs.item? place = some .folder ∧ place = other := by
  rw [enter]
  split <;> simp_all

theorem step_eq (fs : Files) (place : Place) (name : String) :
    fs.step place name = (fs.enter place).map (onward · name) := by
  rw [step]
  cases fs.enter place with
  | error fault => rfl
  | ok folder =>
    change (if _ then _ else _) = Except.ok (onward folder name)
    rw [onward]
    split
    · rfl
    · split <;> rfl

theorem step_eq_ok_iff {name : String} {next : Place} :
    fs.step place name = .ok next ↔
      fs.item? place = some .folder ∧ onward place name = next := by
  rw [step_eq]
  cases henter : fs.enter place with
  | error fault =>
    have : fs.item? place ≠ some .folder := by
      intro hfolder
      rw [enter_eq_ok_iff.mpr ⟨hfolder, rfl⟩] at henter
      cases henter
    simp [Except.map, this]
  | ok folder =>
    obtain ⟨hfolder, rfl⟩ := enter_eq_ok_iff.mp henter
    simp [Except.map, hfolder]

theorem foldlM_step_eq_ok_iff {target : Place} :
    names.foldlM fs.step place = .ok target ↔
      fs.Leads place names ∧ names.foldl onward place = target := by
  induction names generalizing place with
  | nil => simp [pure, Except.pure]
  | cons name names ih =>
    rw [List.foldlM_cons, List.foldl_cons, leads_cons]
    cases hstep : fs.step place name with
    | error fault =>
      have : fs.item? place ≠ some .folder := by
        intro hfolder
        rw [step_eq_ok_iff.mpr ⟨hfolder, rfl⟩] at hstep
        cases hstep
      simp [bind, Except.bind, this]
    | ok next =>
      obtain ⟨hfolder, rfl⟩ := step_eq_ok_iff.mp hstep
      simp [bind, Except.bind, hfolder, ih]

/-- The place to which a written path leads, if its way leads there. -/
def target (fs : Files) (path : String) : Place :=
  (Files.names path).foldl onward (fs.origin path)

theorem locate_eq_ok_iff {path : String} : fs.locate path = .ok place ↔
    path ≠ "" ∧ fs.Leads (fs.origin path) (Files.names path) ∧ fs.target path = place := by
  rw [locate]
  split
  · simp_all
  · rename_i hpath
    rw [and_iff_right (by simpa using hpath)]
    exact foldlM_step_eq_ok_iff

/-- What a written path leads to. -/
def look (fs : Files) (path : String) : Option Item :=
  match fs.locate path with
  | .ok place => fs.item? place
  | .error _ => none

theorem look_of_leads {path : String} (hpath : path ≠ "")
    (h : fs.Leads (fs.origin path) (Files.names path)) :
    fs.look path = fs.item? (fs.target path) := by
  rw [look, locate_eq_ok_iff.mpr ⟨hpath, h, rfl⟩]

theorem look_eq_none {path : String} (h : fs.item? (fs.target path) = none) :
    fs.look path = none := by
  rw [look]
  cases hlocate : fs.locate path with
  | error fault => rfl
  | ok place =>
    obtain ⟨-, -, rfl⟩ := locate_eq_ok_iff.mp hlocate
    exact h

theorem read_eq_of_look {path : String} (h : fs.look path = some item) :
    fs.read path =
      match item with
      | .file content => .ok content
      | .folder => .error .isFolder := by
  rw [look] at h
  rw [read]
  cases hlocate : fs.locate path with
  | error fault => simp [hlocate] at h
  | ok place =>
    rw [hlocate] at h
    simp only [bind, Except.bind, h]
    cases item <;> rfl

/-- What a change keeps that a reader of one path does not notice. -/
structure Kept (fs fs' : Files) (place : Place) : Prop where
  work : fs'.work = fs.work
  folders : ∀ p, fs.item? p = some .folder → fs'.item? p = some .folder
  item : fs'.item? place = fs.item? place

theorem Kept.refl (fs : Files) (place : Place) : Kept fs fs place :=
  ⟨rfl, fun _ h => h, rfl⟩

theorem Kept.trans {fs'' : Files} (h : Kept fs fs' place) (h' : Kept fs' fs'' place) :
    Kept fs fs'' place :=
  ⟨h'.work.trans h.work, fun p hp => h'.folders p (h.folders p hp), h'.item.trans h.item⟩

theorem origin_eq (path : String) (hwork : fs'.work = fs.work) :
    fs'.origin path = fs.origin path := by
  rw [origin, origin, hwork]

theorem target_eq (path : String) (hwork : fs'.work = fs.work) :
    fs'.target path = fs.target path := by
  rw [target, target, origin_eq path hwork]

/-- A path leads to the same thing as long as the folders stay and its target is kept, if only its
    way leads to the target where there is one. -/
theorem look_eq_of_kept {path : String} (hpath : path ≠ "") (h : Kept fs fs' (fs.target path))
    (hway : (fs.item? (fs.target path)).isSome → fs.Leads (fs.origin path) (Files.names path)) :
    fs'.look path = fs.look path := by
  have htarget := target_eq path h.work
  cases hitem : fs.item? (fs.target path) with
  | none =>
    rw [look_eq_none hitem, look_eq_none (by rw [htarget, h.item, hitem])]
  | some item =>
    have hleads := hway (by simp [hitem])
    have hleads' : fs'.Leads (fs'.origin path) (Files.names path) := by
      rw [origin_eq path h.work]
      exact hleads.mono h.folders
    rw [look_of_leads hpath hleads, look_of_leads hpath hleads', htarget, h.item]

/-! ## Written paths -/

theorem names_eq_append (path : String) (front back : List Char)
    (h : path.toList = front ++ '/' :: back) :
    Files.names path = Files.names (String.ofList front) ++ Files.names (String.ofList back) := by
  simp only [Files.names, h, String.toList_ofList, Text.splitOn_eq, ← List.map_append]
  rw [List.splitOn_append_cons_self]

theorem names_eq_singleton {name : String} (h : '/' ∉ name.toList) : Files.names name = [name] := by
  rw [Files.names, Text.splitOn_of_not_mem h]
  simp

end Files

/-- The names with which the paths below a root begin. -/
def stem (root : String) : List String :=
  if root.isEmpty then []
  else if root.toList.getLast? = some '/' then (Files.names root).dropLast
  else Files.names root

theorem names_joinPath (root rest : String) :
    Files.names (joinPath root rest) = stem root ++ Files.names rest := by
  rw [joinPath, stem]
  split
  · rfl
  · split
    · rename_i hlast
      obtain ⟨front, hfront⟩ := List.getLast?_eq_some_iff.mp hlast
      have hempty : Files.names (String.ofList []) = [String.ofList []] :=
        Files.names_eq_singleton (by simp)
      rw [Files.names_eq_append root front [] hfront, hempty, List.dropLast_concat,
        Files.names_eq_append (root ++ rest) front rest.toList (by simp [hfront]),
        String.ofList_toList]
    · rw [Files.names_eq_append (root ++ "/" ++ rest) root.toList rest.toList (by simp),
        String.ofList_toList, String.ofList_toList]

theorem stem_isPrefix (root : String) : stem root <+: Files.names root := by
  rw [stem]
  split
  · exact List.nil_prefix
  · split
    · exact List.dropLast_prefix _
    · exact List.prefix_rfl

theorem toList_joinPath (root rest : String) :
    ∃ front, (joinPath root rest).toList = front ++ rest.toList ∧
      front.head? = root.toList.head? := by
  rw [joinPath]
  split
  · rename_i hempty
    exact ⟨[], rfl, by simp_all⟩
  · rename_i hne
    split
    · exact ⟨root.toList, by simp, rfl⟩
    · refine ⟨root.toList ++ ['/'], by simp, ?_⟩
      rw [List.head?_append_of_ne_nil]
      simpa using hne

theorem joinPath_ne_empty {root rest : String} (h : rest ≠ "") : joinPath root rest ≠ "" := by
  obtain ⟨front, htext, -⟩ := toList_joinPath root rest
  intro hempty
  have hnil : front = [] ∧ rest = "" := by simpa [hempty] using htext
  exact h hnil.2

theorem stem_joinPath {root rest : String} (h : rest ≠ "")
    (hlast : rest.toList.getLast? ≠ some '/') :
    stem (joinPath root rest) = stem root ++ Files.names rest := by
  obtain ⟨front, htext, -⟩ := toList_joinPath root rest
  rw [stem, if_neg (by simpa using joinPath_ne_empty h), if_neg, names_joinPath]
  rwa [htext, List.getLast?_append_of_ne_nil]
  simpa using h

theorem Files.origin_joinPath {fs : Files} {root rest : String}
    (h : rest.toList.head? ≠ some '/') : fs.origin (joinPath root rest) = fs.origin root := by
  obtain ⟨front, htext, hfront⟩ := toList_joinPath root rest
  rw [origin, origin, htext, ← hfront]
  cases front with
  | nil => simp [h]
  | cons c front => rfl

end Stepflow.Project
