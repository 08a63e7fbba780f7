import Mathlib
import Stepflow.Project.Scan
import Stepflow.Proofs.FolderWalk
import Stepflow.Proofs.Places
import Stepflow.TypeScript.Source

/-!
# Scans of a project

A scan walks through the folders of a project and looks at the admitted files. What it reports of a
file depends on that file alone, whatever reader makes trees of the sources.

* `Files.Sound`: files in memory as a tree of folders with proper names.
* `Files.Hosts`: a root leads to a folder of such a tree.
* `Files.Admitted`: a file below the top folder of a project is to be looked at.
* `Files.listing`: the paths that a scan looks at.
* `Reflects`: a report says of each path what the extraction of that file gives.

Results:
* `Files.Sound.holds_treeWithin`: a walk through the folders can come to all files below them.
* `mem_chosen`, `pairwise_chosen`: the listed files are the admitted ones, in strict order.
* `Files.Sound.look_below`: a path that was put together leads to its file.
* `Files.entry_cases`, `Files.scan_run`: a scan puts together what each path adds.
* `Files.Hosts.scan_put`: another content of a file changes nothing of what is reported of others.
* `scan_reflects`: a scan is the ordered image of its project, file by file.
-/

namespace Stepflow.Project

/-! ## Sound files -/

namespace Files

variable {fs : Files} {place top : Place} {item : Item}

/-- The places are those of a tree of files and folders: each is there once, in a folder, and under
    names that a path can hold. -/
structure Sound (fs : Files) : Prop where
  rooted : fs.Rooted
  distinct : (fs.items.map (·.1)).Nodup
  named : ∀ entry ∈ fs.items, entry.1 ≠ [] ∧ ∀ name ∈ entry.1, Proper name

theorem Sound.item?_eq_some_iff (h : fs.Sound) (hne : place ≠ []) :
    fs.item? place = some item ↔ (place, item) ∈ fs.items := by
  rw [item?_eq_lookup hne]
  refine ⟨mem_items_of_lookup, fun hmem => ?_⟩
  obtain ⟨before, after, heq⟩ := List.append_of_mem hmem
  refine List.lookup_eq_some_iff.mpr ⟨before, after, heq, fun entry hentry => ?_⟩
  have hdistinct := h.distinct
  rw [heq, List.map_append, List.map_cons, List.nodup_append] at hdistinct
  simpa using (hdistinct.2.2 entry.1 (List.mem_map_of_mem hentry) place List.mem_cons_self).symm

theorem ne_nil_of_file {content : ByteArray} (h : fs.item? place = some (.file content)) :
    place ≠ [] := by
  rintro rfl
  cases h

theorem Sound.proper (h : fs.Sound) {content : ByteArray}
    (hfile : fs.item? place = some (.file content)) : ∀ name ∈ place, Proper name :=
  (h.named _ ((h.item?_eq_some_iff (ne_nil_of_file hfile)).mp hfile)).2

/-! ## Folders as trees -/

theorem nameIn_eq_some_iff {other : Place} {name : String} :
    (if other.dropLast = place then other.getLast? else none) = some name ↔
      other = place ++ [name] := by
  constructor
  · intro hname
    split at hname
    · rename_i hplace
      rw [← hplace]
      exact (List.dropLast_append_getLast? _ hname).symm
    · cases hname
  · rintro rfl
    simp

theorem Sound.mem_namesIn (h : fs.Sound) {name : String} :
    name ∈ fs.namesIn place ↔ (fs.item? (place ++ [name])).isSome := by
  simp only [namesIn, List.mem_filterMap, nameIn_eq_some_iff, Option.isSome_iff_exists,
    h.item?_eq_some_iff (List.concat_ne_nil name place), Prod.exists]
  constructor
  · rintro ⟨_, item, hentry, rfl⟩
    exact ⟨item, hentry⟩
  · rintro ⟨item, hentry⟩
    exact ⟨_, item, hentry, rfl⟩

theorem Sound.nodup_namesIn (h : fs.Sound) (place : Place) : (fs.namesIn place).Nodup := by
  refine (List.pairwise_map.mp h.distinct).filterMap _ ?_
  intro entry entry' hne name hname name' hname' heq
  rw [nameIn_eq_some_iff] at hname hname'
  exact hne (by rw [hname, hname', heq])

theorem Sound.length_le_depth (h : fs.Sound) (hplace : (fs.item? place).isSome) :
    place.length ≤ fs.depth := by
  have hmost : ∀ items : List (Place × Item), ∀ entry ∈ items,
      entry.1.length ≤ items.foldr (fun entry most => max entry.1.length most) 0 := by
    intro items
    induction items with
    | nil => simp
    | cons first items ih =>
      refine List.forall_mem_cons.mpr ⟨Nat.le_max_left _ _, fun entry hentry => ?_⟩
      exact (ih entry hentry).trans (Nat.le_max_right _ _)
  by_cases hne : place = []
  · simp [hne]
  · obtain ⟨item, hitem⟩ := Option.isSome_iff_exists.mp hplace
    exact hmost _ _ ((h.item?_eq_some_iff hne).mp hitem)

theorem treeWithin_of_file {content : ByteArray} (h : fs.item? place = some (.file content))
    (far : Nat) : fs.treeWithin far place = .file content.size := by
  cases far <;> rw [treeWithin, h]

theorem Rooted.folder_above (h : fs.Rooted) {name : String} {names : List String}
    (hsome : (fs.item? (place ++ name :: names)).isSome) : fs.item? place = some .folder := by
  refine h.folder_of_isPrefix (List.prefix_append place _) ?_ hsome
  simp

theorem Rooted.isSome_front (h : fs.Rooted) {name : String} {names : List String}
    (hsome : (fs.item? (place ++ name :: names)).isSome) :
    (fs.item? (place ++ [name])).isSome := by
  cases names with
  | nil => exact hsome
  | cons name' names =>
    have hfolder : fs.item? (place ++ [name]) = some .folder :=
      h.folder_above (by simpa using hsome)
    simp [hfolder]

/-- A walk through the folders can come to all files below them. -/
theorem Sound.holds_treeWithin (h : fs.Sound) {far size : Nat} {names : List String}
    (hplace : (fs.item? place).isSome)
    (hfar : ∀ names, (fs.item? (place ++ names)).isSome → names.length ≤ far) :
    (fs.treeWithin far place).Holds names (.file size) ↔
      ∃ content, fs.item? (place ++ names) = some (.file content) ∧ size = content.size := by
  induction names generalizing place far with
  | nil =>
    rw [FileTree.holds_nil, List.append_nil]
    cases hitem : fs.item? place with
    | none => simp [hitem] at hplace
    | some item =>
      cases item with
      | file content => simp [treeWithin_of_file hitem, eq_comm]
      | folder => cases far <;> simp [treeWithin, hitem]
  | cons name names ih =>
    cases hitem : fs.item? place with
    | none => simp [hitem] at hplace
    | some item =>
      cases item with
      | file content =>
        rw [treeWithin_of_file hitem]
        constructor
        · rintro ⟨⟩
        · rintro ⟨content', hfile, -⟩
          -- something is below the place, so it is a folder
          have hfolder := h.rooted.folder_above (Option.isSome_of_eq_some hfile)
          cases hitem.symm.trans hfolder
      | folder =>
        cases far with
        | zero =>
          rw [treeWithin, hitem, FileTree.holds_cons]
          constructor
          · rintro ⟨item, hmem, -⟩
            cases hmem
          · rintro ⟨content, hfile, -⟩
            simpa using hfar (name :: names) (by simp [hfile])
        | succ far =>
          have hbelow : ∀ names, (fs.item? (place ++ [name] ++ names)).isSome →
              names.length ≤ far := by
            intro names hsome
            simpa using hfar (name :: names) (by simpa using hsome)
          rw [treeWithin, hitem, FileTree.holds_cons]
          simp only [List.mem_map, Prod.mk.injEq, h.mem_namesIn]
          constructor
          · rintro ⟨_, ⟨_, hsome, rfl, rfl⟩, hholds⟩
            simpa using (ih hsome hbelow).mp hholds
          · rintro ⟨content, hfile, hsize⟩
            have hsome := h.rooted.isSome_front (Option.isSome_of_eq_some hfile)
            exact ⟨_, ⟨name, hsome, rfl, rfl⟩,
              (ih hsome hbelow).mpr ⟨content, by simpa using hfile, hsize⟩⟩

theorem Sound.distinct_treeWithin (h : fs.Sound) (far : Nat) (place : Place) :
    (fs.treeWithin far place).Distinct := by
  induction far generalizing place with
  | zero =>
    rw [treeWithin]
    split
    · exact .file _
    · exact .folder List.nodup_nil nofun
  | succ far ih =>
    rw [treeWithin]
    split
    · exact .file _
    · refine .folder ?_ fun entry hentry => ?_
      · simpa [Function.comp_def] using h.nodup_namesIn place
      · obtain ⟨name, -, rfl⟩ := List.mem_map.mp hentry
        exact ih _

end Files

/-! ## Listed files -/

/-- The names of the files that are looked at, in the order of a walk. -/
def chosen (config : Config) (item : FileTree) : List Place :=
  (item.walk isSkipped []).filterMap fun e => (selectedPath? config e).map fun _ => e.names

theorem selectedPath?_eq_some_iff {config : Config} {e : Entry} {path : String} :
    selectedPath? config e = some path ↔ ∃ size, e.item = .file size ∧
      config.admits (relativePath e.names) = true ∧ size ≤ config.maxFileSize ∧
      relativePath e.names = path := by
  rw [selectedPath?]
  split
  · rename_i size hitem
    simp [hitem, and_assoc]
  · rename_i hitem
    refine iff_of_false nofun ?_
    rintro ⟨size, hfile, -⟩
    exact hitem size hfile

theorem selected_eq (config : Config) (item : FileTree) :
    selected config item = (chosen config item).map relativePath := by
  rw [selected, chosen, List.map_filterMap]
  refine List.filterMap_congr fun e _ => ?_
  cases hpath : selectedPath? config e with
  | none => rfl
  | some path =>
    obtain ⟨-, -, -, -, rfl⟩ := selectedPath?_eq_some_iff.mp hpath
    rfl

theorem mem_chosen {config : Config} {item : FileTree} {names : Place} :
    names ∈ chosen config item ↔ ∃ size, item.Holds names (.file size) ∧
      (∀ name ∈ names, isSkipped name = false) ∧ config.admits (relativePath names) = true ∧
      size ≤ config.maxFileSize := by
  simp only [chosen, List.mem_filterMap, Option.map_eq_some_iff, FileTree.mem_walk_iff,
    List.nil_append, selectedPath?_eq_some_iff]
  constructor
  · rintro ⟨e, ⟨below, hnames, hholds, hskip⟩, path, ⟨size, hitem, hadmits, hsize, -⟩, rfl⟩
    rw [hitem, ← hnames] at hholds
    exact ⟨size, hholds, hnames ▸ hskip, hadmits, hsize⟩
  · rintro ⟨size, hholds, hskip, hadmits, hsize⟩
    exact ⟨{ names := names, item := .file size }, ⟨names, rfl, hholds, hskip⟩, _,
      ⟨size, rfl, hadmits, hsize, rfl⟩, rfl⟩

/-- Files in folders that have no name twice are listed in strict order. -/
theorem pairwise_chosen {config : Config} {item : FileTree} (h : item.Distinct) :
    (chosen config item).Pairwise (List.Lex (· < ·)) := by
  refine (FileTree.pairwise_walk h []).filterMap _ fun e e' hlt names hnames names' hnames' => ?_
  obtain ⟨-, -, rfl⟩ := Option.map_eq_some_iff.mp hnames
  obtain ⟨-, -, rfl⟩ := Option.map_eq_some_iff.mp hnames'
  exact hlt

/-! ## Written paths of files -/

theorem not_mem_intercalate {c : Char} (hc : c ≠ '/') {names : List String}
    (h : ∀ name ∈ names, c ∉ name.toList) : c ∉ ("/".intercalate names).toList := by
  induction names with
  | nil => simp
  | cons name names ih =>
    rw [List.forall_mem_cons] at h
    by_cases hnames : names = []
    · simpa [hnames] using h.1
    · rw [String.intercalate_cons_of_ne_nil hnames]
      simp only [String.toList_append, List.mem_append, not_or]
      exact ⟨⟨h.1, by simpa using hc⟩, ih h.2⟩

/-- Without backslashes the names are written as they are. -/
theorem relativePath_eq {names : List String} (h : ∀ name ∈ names, '\\' ∉ name.toList) :
    relativePath names = "/".intercalate names := by
  have hnone := not_mem_intercalate (by decide) h
  rw [relativePath, List.map_congr_left (g := id), List.map_id, String.ofList_toList]
  intro c hc
  rw [if_neg, id]
  rintro rfl
  exact hnone hc

theorem names_intercalate {names : List String} (hne : names ≠ [])
    (h : ∀ name ∈ names, Proper name) : Files.names ("/".intercalate names) = names := by
  have hsplit : (['/'].intercalate (names.map String.toList)).splitOn '/' =
      names.map String.toList := by
    apply List.splitOn_intercalate
    · simpa using fun name hname => (h name hname).plain
    · simpa using hne
  rw [Files.names, Text.splitOn_eq, String.toList_intercalate, show "/".toList = ['/'] from rfl,
    hsplit, List.map_map]
  exact (List.map_congr_left fun name _ => String.ofList_toList).trans (List.map_id _)

/-- A written path whose first name is proper is not empty, and starts in the folder below which it
    is put. -/
theorem relative_of_names {path : String} (h : ∀ name ∈ Files.names path, Proper name) :
    path ≠ "" ∧ path.toList.head? ≠ some '/' := by
  have hempty : ¬ Proper "" := fun h => h.ne_empty rfl
  constructor
  · rintro rfl
    exact hempty (h "" (by decide))
  · intro hhead
    obtain ⟨rest, hrest⟩ := List.head?_eq_some_iff.mp hhead
    have hnames := Files.names_eq_append path [] rest hrest
    refine hempty (h "" ?_)
    rw [hnames, Files.names_eq_singleton (by simp)]
    simp

namespace Files

variable {fs fs' : Files} {top : Place} {root : String}

theorem leads_stem (hroot : fs.locate root = .ok top) :
    fs.Leads (fs.origin root) (stem root) ∧ (stem root).foldl onward (fs.origin root) = top := by
  obtain ⟨hne, hleads, htarget⟩ := locate_eq_ok_iff.mp hroot
  rw [stem, if_neg (by simpa using hne)]
  split
  · rename_i hlast
    obtain ⟨front, hfront⟩ := List.getLast?_eq_some_iff.mp hlast
    have hempty : Files.names (String.ofList []) = [""] := names_eq_singleton (by simp)
    rw [target, names_eq_append root front [] hfront, hempty] at htarget
    rw [names_eq_append root front [] hfront, hempty] at hleads ⊢
    rw [List.dropLast_concat]
    -- the empty name behind the last separator leads nowhere else
    rw [List.foldl_append] at htarget
    exact ⟨(leads_append.mp hleads).1, htarget⟩
  · exact ⟨hleads, htarget⟩

/-- The path of a file below a root leads to the file. -/
theorem Sound.look_below (h : fs.Sound) (hroot : fs.locate root = .ok top) {names : List String}
    {content : ByteArray} (hne : names ≠ [])
    (hfile : fs.item? (top ++ names) = some (.file content)) :
    fs.look (joinPath root ("/".intercalate names)) = some (.file content) := by
  have hproper : ∀ name ∈ names, Proper name :=
    fun name hname => h.proper hfile name (List.mem_append_right _ hname)
  have hnames := names_intercalate hne hproper
  obtain ⟨hempty, hhead⟩ := relative_of_names (hnames.symm ▸ hproper)
  obtain ⟨hleads, hstem⟩ := leads_stem hroot
  have htarget : fs.target (joinPath root ("/".intercalate names)) = top ++ names := by
    rw [target, names_joinPath, hnames, origin_joinPath hhead, List.foldl_append, hstem,
      foldl_onward_proper hproper]
  have hway : fs.Leads (fs.origin (joinPath root ("/".intercalate names)))
      (Files.names (joinPath root ("/".intercalate names))) := by
    rw [names_joinPath, hnames, origin_joinPath hhead, leads_append, hstem]
    exact ⟨hleads, leads_proper hproper h.rooted (by simp [hfile])⟩
  rw [look_of_leads (joinPath_ne_empty hempty) hway, htarget, hfile]

end Files

/-! ## Reports -/

namespace Files

variable {fs fs' : Files} {root path : String} (reader : Source.Reader)

/-- What the extraction of a file gives. -/
def extracted (fs : Files) (path : String) : Except Error Source.Extract :=
  ((extractFile reader Files.disk path).run fs).1

/-- What a path below a root adds to the report of a scan. -/
def entry (fs : Files) (root path : String) : List FileReport × List FileError :=
  report reader path ((fs.read (joinPath root path)).bind textOf)

/-- A path adds the charts of its file if there are some, an error if the extraction fails, and
    nothing else. -/
theorem entry_cases (fs : Files) (root path : String) :
    (∃ e message, fs.extracted reader (joinPath root path) = .error e ∧
        fs.entry reader root path = ([], [{ path := path, message := message }])) ∨
      (∃ x, fs.extracted reader (joinPath root path) = .ok x ∧ x.charts = [] ∧
        fs.entry reader root path = ([], [])) ∨
      ∃ x hash, fs.extracted reader (joinPath root path) = .ok x ∧ x.charts ≠ [] ∧
        fs.entry reader root path =
          ([{ path := path, contentHash := hash, charts := x.charts }], []) := by
  have hread : (Files.disk.readText (joinPath root path)).run fs =
      pure ((fs.read (joinPath root path)).bind textOf, fs) := rfl
  rw [extracted, extractFile, StateT.run_bind, hread, pure_bind, entry]
  cases (fs.read (joinPath root path)).bind textOf with
  | error fault => exact .inl ⟨_, _, rfl, rfl⟩
  | ok source =>
    rw [report]
    change (∃ e message, Source.extract reader source = .error e ∧ _) ∨
      (∃ x, Source.extract reader source = .ok x ∧ _) ∨
        ∃ x hash, Source.extract reader source = .ok x ∧ _
    cases Source.extract reader source with
    | error e => exact .inl ⟨_, _, rfl, rfl⟩
    | ok x =>
      dsimp only
      by_cases hcharts : x.charts = []
      · exact .inr (.inl ⟨x, rfl, hcharts, by simp [hcharts]⟩)
      · exact .inr (.inr ⟨x, Sha256.ofText source, rfl, hcharts, by simp [hcharts]⟩)

theorem scanFiles_run (fs : Files) (root : String) (paths : List String) :
    (scanFiles reader Files.disk root paths).run fs =
      ((paths.flatMap fun path => (fs.entry reader root path).1,
        paths.flatMap fun path => (fs.entry reader root path).2), fs) := by
  have hread : ∀ path, (Files.disk.readText path).run fs =
      pure ((fs.read path).bind textOf, fs) := fun _ => rfl
  induction paths with
  | nil => rfl
  | cons path paths ih =>
    rw [scanFiles, StateT.run_bind, hread, pure_bind, StateT.run_bind, ih]
    rfl

/-- The paths that a scan looks at, in order. -/
def listing (fs : Files) (p : Project) : List String :=
  ((fs.tree? p.root).map (selected p.config)).getD []

/-- A scan puts together what each path adds. It changes nothing, and takes no time. -/
theorem scan_run (fs : Files) (p : Project) :
    (scan reader Files.disk p).run fs =
      ({ files := (fs.listing p).flatMap fun path => (fs.entry reader p.root path).1
         errors := (fs.listing p).flatMap fun path => (fs.entry reader p.root path).2
         scanned := (fs.listing p).length
         duration := 0 }, fs) := by
  have hclock : Files.disk.clock.run fs = pure (0, fs) := rfl
  have htree : (Files.disk.tree p.root).run fs = pure (fs.tree? p.root, fs) := rfl
  rw [scan, StateT.run_bind, hclock, pure_bind, StateT.run_bind, htree, pure_bind,
    StateT.run_bind]
  change _ >>= _ = _
  rw [scanFiles_run]
  rfl

end Files

theorem flatMap_sublist {α : Type} {g : α → List α} (h : ∀ x, (g x).Sublist [x]) (xs : List α) :
    (xs.flatMap g).Sublist xs := by
  induction xs with
  | nil => exact .refl _
  | cons x xs ih => exact (h x).append ih

/-- What other paths add is left if what belongs to one path is taken out. -/
theorem filter_flatMap_ne {β : Type} {g : String → List β} {path : β → String}
    (h : ∀ x, ∀ y ∈ g x, path y = x) (gone : String) (xs : List String) :
    (xs.flatMap g).filter (path · ≠ gone) = (xs.filter (· ≠ gone)).flatMap g := by
  induction xs with
  | nil => rfl
  | cons x xs ih =>
    rw [List.flatMap_cons, List.filter_append, ih]
    by_cases hx : x = gone
    · have hnone : (g x).filter (path · ≠ gone) = [] := by
        rw [List.filter_eq_nil_iff]
        intro y hy
        simp [h x y hy, hx]
      rw [hnone, List.filter_cons_of_neg (by simpa using hx), List.nil_append]
    · have hall : (g x).filter (path · ≠ gone) = g x := by
        rw [List.filter_eq_self]
        intro y hy
        simpa [h x y hy] using hx
      rw [hall, List.filter_cons_of_pos (by simpa using hx), List.flatMap_cons]

/-- A report says of each path what the extraction of its file gives: charts if there are some, an
    error if it fails, and nothing else; in the order of the paths. -/
structure Reflects (reader : Source.Reader) (fs : Files) (root : String) (paths : List String)
    (r : Report) : Prop where
  scanned : r.scanned = paths.length
  files_order : (r.files.map (·.path)).Sublist paths
  errors_order : (r.errors.map (·.path)).Sublist paths
  disjoint : (r.files.map (·.path)).Disjoint (r.errors.map (·.path))
  charts_iff : ∀ path ∈ paths, ∀ charts, (∃ f ∈ r.files, f.path = path ∧ f.charts = charts) ↔
    charts ≠ [] ∧ ∃ x, fs.extracted reader (joinPath root path) = .ok x ∧ x.charts = charts
  error_iff : ∀ path ∈ paths, path ∈ r.errors.map (·.path) ↔
    ∃ e, fs.extracted reader (joinPath root path) = .error e

namespace Files

variable {fs fs' : Files} {root path : String} {reader : Source.Reader}

/-- A path adds at most one thing of each kind, under its own name. -/
theorem entry_sublist (reader : Source.Reader) (fs : Files) (root path : String) :
    ((fs.entry reader root path).1.map (·.path)).Sublist [path] ∧
      ((fs.entry reader root path).2.map (·.path)).Sublist [path] := by
  obtain ⟨e, message, -, hentry⟩ | ⟨x, -, -, hentry⟩ | ⟨x, hash, -, -, hentry⟩ :=
    fs.entry_cases reader root path <;> simp [hentry]

theorem path_of_mem_files {f : FileReport} (h : f ∈ (fs.entry reader root path).1) :
    f.path = path :=
  List.mem_singleton.mp ((fs.entry_sublist reader root path).1.subset (List.mem_map_of_mem h))

theorem path_of_mem_errors {e : FileError} (h : e ∈ (fs.entry reader root path).2) :
    e.path = path :=
  List.mem_singleton.mp ((fs.entry_sublist reader root path).2.subset (List.mem_map_of_mem h))

theorem exists_mem_files_iff {charts : List Flow.Chart} :
    (∃ f ∈ (fs.entry reader root path).1, f.charts = charts) ↔
      charts ≠ [] ∧ ∃ x, fs.extracted reader (joinPath root path) = .ok x ∧ x.charts = charts := by
  obtain ⟨e, message, hx, hentry⟩ | ⟨x, hx, hcharts, hentry⟩ | ⟨x, hash, hx, hcharts, hentry⟩ :=
    fs.entry_cases reader root path
  · simp [hx, hentry]
  · simp [hx, hentry, hcharts, eq_comm]
  · simp only [hx, hentry, List.mem_singleton, exists_eq_left, Except.ok.injEq, exists_eq_left']
    constructor
    · rintro rfl
      exact ⟨hcharts, rfl⟩
    · exact And.right

theorem exists_mem_errors_iff :
    (∃ e, e ∈ (fs.entry reader root path).2) ↔
      ∃ e, fs.extracted reader (joinPath root path) = .error e := by
  obtain ⟨e, message, hx, hentry⟩ | ⟨x, hx, hcharts, hentry⟩ | ⟨x, hash, hx, hcharts, hentry⟩ :=
    fs.entry_cases reader root path <;> simp [hx, hentry]

theorem reflects_scan (reader : Source.Reader) (fs : Files) (p : Project) :
    Reflects reader fs p.root (fs.listing p) ((scan reader Files.disk p).run fs).1 := by
  rw [scan_run]
  refine ⟨rfl, ?_, ?_, ?_, fun path hpath charts => ?_, fun path hpath => ?_⟩
  · rw [List.map_flatMap]
    exact flatMap_sublist (fun path => (fs.entry_sublist reader p.root path).1) _
  · rw [List.map_flatMap]
    exact flatMap_sublist (fun path => (fs.entry_sublist reader p.root path).2) _
  · intro path hfile herror
    obtain ⟨f, hf, rfl⟩ := List.mem_map.mp hfile
    obtain ⟨e, he, heq⟩ := List.mem_map.mp herror
    obtain ⟨path, -, hf⟩ := List.mem_flatMap.mp hf
    obtain ⟨path', -, he⟩ := List.mem_flatMap.mp he
    rw [path_of_mem_files hf, path_of_mem_errors he] at heq
    subst heq
    obtain ⟨-, x, hx, -⟩ := exists_mem_files_iff.mp ⟨f, hf, rfl⟩
    obtain ⟨err, herr⟩ := exists_mem_errors_iff.mp ⟨e, he⟩
    rw [hx] at herr
    cases herr
  · rw [← exists_mem_files_iff]
    constructor
    · rintro ⟨f, hf, rfl, rfl⟩
      obtain ⟨path, -, hf⟩ := List.mem_flatMap.mp hf
      exact ⟨f, path_of_mem_files hf ▸ hf, rfl⟩
    · rintro ⟨f, hf, rfl⟩
      exact ⟨f, List.mem_flatMap.mpr ⟨path, hpath, hf⟩, path_of_mem_files hf, rfl⟩
  · rw [← exists_mem_errors_iff, List.mem_map]
    constructor
    · rintro ⟨e, he, rfl⟩
      obtain ⟨path, -, he⟩ := List.mem_flatMap.mp he
      exact ⟨e, path_of_mem_errors he ▸ he⟩
    · rintro ⟨e, he⟩
      exact ⟨e, List.mem_flatMap.mpr ⟨path, hpath, he⟩, path_of_mem_errors he⟩

/-! ## Projects -/

/-- A root leads to a folder of a sound tree, in which no name of a file has a backslash. -/
structure Hosts (fs : Files) (root : String) (top : Place) : Prop where
  sound : fs.Sound
  located : fs.locate root = .ok top
  folder : fs.item? top = some .folder
  plain : ∀ names content, fs.item? (top ++ names) = some (.file content) →
    ∀ name ∈ names, '\\' ∉ name.toList

/-- The file under these names below the top folder is to be looked at: it is not hidden or in a
    hidden folder or one of installed packages, its path is admitted, and it is not too large. -/
def Admitted (fs : Files) (top : Place) (config : Config) (names : Place) : Prop :=
  ∃ content, fs.item? (top ++ names) = some (.file content) ∧
    (∀ name ∈ names, name.toList.head? ≠ some '.' ∧ name ≠ "node_modules") ∧
    config.admits ("/".intercalate names) = true ∧ content.size ≤ config.maxFileSize

variable {top : Place} {p : Project} {names : Place} {content : ByteArray}

theorem Hosts.ne_nil (h : fs.Hosts root top)
    (hfile : fs.item? (top ++ names) = some (.file content)) : names ≠ [] := by
  rintro rfl
  rw [List.append_nil, h.folder] at hfile
  cases hfile

theorem Hosts.proper (h : fs.Hosts root top)
    (hfile : fs.item? (top ++ names) = some (.file content)) : ∀ name ∈ names, Proper name :=
  fun name hname => h.sound.proper hfile name (List.mem_append_right _ hname)

/-- Files with the same path have the same names. -/
theorem Hosts.names_inj (h : fs.Hosts root top) {names' : Place} {content' : ByteArray}
    (hfile : fs.item? (top ++ names) = some (.file content))
    (hfile' : fs.item? (top ++ names') = some (.file content'))
    (heq : "/".intercalate names = "/".intercalate names') : names = names' := by
  rw [← names_intercalate (h.ne_nil hfile) (h.proper hfile), heq,
    names_intercalate (h.ne_nil hfile') (h.proper hfile')]

theorem isSkipped_eq_false_iff {name : String} :
    isSkipped name = false ↔ name.toList.head? ≠ some '.' ∧ name ≠ "node_modules" := by
  simp [isSkipped]

/-- The files that a walk from the top folder can come to are those below it. -/
theorem Hosts.holds_tree (h : fs.Hosts root top) {size : Nat} :
    (fs.treeWithin fs.depth top).Holds names (.file size) ↔
      ∃ content, fs.item? (top ++ names) = some (.file content) ∧ size = content.size := by
  refine h.sound.holds_treeWithin (by simp [h.folder]) fun names hsome => ?_
  have hlength := h.sound.length_le_depth hsome
  rw [List.length_append] at hlength
  exact (Nat.le_add_left _ _).trans hlength

/-- The listed paths are those of the admitted files, in strict order of their names. -/
theorem Hosts.exists_places (h : fs.Hosts p.root top) :
    ∃ places : List Place, fs.listing p = places.map ("/".intercalate ·) ∧
      places.Pairwise (List.Lex (· < ·)) ∧
      ∀ names, names ∈ places ↔ fs.Admitted top p.config names := by
  have hlisting : fs.listing p =
      (chosen p.config (fs.treeWithin fs.depth top)).map relativePath := by
    rw [← selected_eq, listing, tree?, h.located]
    simp [h.folder]
  have hmem : ∀ names, names ∈ chosen p.config (fs.treeWithin fs.depth top) ↔
      fs.Admitted top p.config names := by
    intro names
    simp only [mem_chosen, isSkipped_eq_false_iff, h.holds_tree]
    constructor
    · rintro ⟨_, ⟨content, hfile, rfl⟩, hskip, hadmits, hmax⟩
      rw [relativePath_eq (h.plain _ _ hfile)] at hadmits
      exact ⟨content, hfile, hskip, hadmits, hmax⟩
    · rintro ⟨content, hfile, hskip, hadmits, hmax⟩
      rw [← relativePath_eq (h.plain _ _ hfile)] at hadmits
      exact ⟨_, ⟨content, hfile, rfl⟩, hskip, hadmits, hmax⟩
  refine ⟨_, ?_, pairwise_chosen (h.sound.distinct_treeWithin _ _), hmem⟩
  rw [hlisting]
  refine List.map_congr_left fun names hnames => ?_
  obtain ⟨content, hfile, -⟩ := (hmem names).mp hnames
  exact relativePath_eq (h.plain _ _ hfile)

theorem Hosts.nodup_listing (h : fs.Hosts p.root top) : (fs.listing p).Nodup := by
  obtain ⟨places, hlisting, hordered, hmem⟩ := h.exists_places
  rw [hlisting]
  have hdistinct : places.Nodup := hordered.imp fun hlt heq => by
    subst heq
    exact Std.Irrefl.irrefl _ hlt
  refine hdistinct.map_on fun names hnames names' hnames' heq => ?_
  obtain ⟨content, hfile, -⟩ := (hmem names).mp hnames
  obtain ⟨content', hfile', -⟩ := (hmem names').mp hnames'
  exact h.names_inj hfile hfile' heq

/-- Another content of a file keeps everything else. -/
theorem Sound.put (h : fs.Sound) {place : Place} (hfile : fs.item? place = some (.file content))
    (new : ByteArray) : (fs.put place (.file new)).Sound := by
  have hne := ne_nil_of_file hfile
  have hmem := (h.item?_eq_some_iff hne).mp hfile
  refine ⟨?_, ?_, ?_⟩
  · obtain ⟨front, name, rfl⟩ := (List.eq_nil_or_concat' place).resolve_left hne
    refine h.rooted.put (h.rooted front name (by rw [hfile]; rfl)) fun hfolder => ?_
    rw [hfile] at hfolder
    cases hfolder
  · rw [Files.put, List.map_cons, List.nodup_cons]
    refine ⟨?_, h.distinct.sublist (List.filter_sublist.map _)⟩
    simp
  · intro entry hentry
    rw [Files.put, List.mem_cons] at hentry
    rcases hentry with rfl | hentry
    · have hnamed := h.named _ hmem
      exact hnamed
    · exact h.named entry (List.mem_of_mem_filter hentry)

theorem kept_put {place other : Place} (hfile : fs.item? place = some (.file content))
    (hne : other ≠ place) (new : ByteArray) : Kept fs (fs.put place (.file new)) other := by
  have htop := ne_nil_of_file hfile
  refine ⟨rfl, fun p hp => ?_, by rw [item?_put htop, if_neg hne]⟩
  rw [item?_put htop, if_neg, hp]
  rintro rfl
  rw [hfile] at hp
  cases hp

theorem Hosts.put (h : fs.Hosts root top)
    (hfile : fs.item? (top ++ names) = some (.file content)) (new : ByteArray) :
    (fs.put (top ++ names) (.file new)).Hosts root top := by
  have hne : top ≠ top ++ names := by
    intro heq
    exact h.ne_nil hfile (List.append_right_eq_self.mp heq.symm)
  have hkept := kept_put hfile hne new
  obtain ⟨hroot, hleads, htarget⟩ := locate_eq_ok_iff.mp h.located
  refine ⟨h.sound.put hfile new, ?_, hkept.item.trans h.folder, fun names' content' hfile' => ?_⟩
  · rw [locate_eq_ok_iff, target_eq root hkept.work]
    exact ⟨hroot, hleads.mono hkept.folders, htarget⟩
  · rw [item?_put (ne_nil_of_file hfile)] at hfile'
    split at hfile'
    · rename_i heq
      exact List.append_cancel_left heq ▸ h.plain _ _ hfile
    · exact h.plain _ _ hfile'

theorem admitted_put_iff {config : Config} {other : Place}
    (hfile : fs.item? (top ++ names) = some (.file content)) (hne : other ≠ names)
    (new : ByteArray) :
    (fs.put (top ++ names) (.file new)).Admitted top config other ↔
      fs.Admitted top config other := by
  rw [Admitted, Admitted, item?_put (ne_nil_of_file hfile), if_neg]
  exact fun heq => hne (List.append_cancel_left heq)

/-- The listed paths but one are those of the admitted files but one. -/
theorem Hosts.exists_places_ne (h : fs.Hosts p.root top)
    (hfile : fs.item? (top ++ names) = some (.file content)) :
    ∃ places : List Place,
      (fs.listing p).filter (· ≠ "/".intercalate names) = places.map ("/".intercalate ·) ∧
      places.Pairwise (List.Lex (· < ·)) ∧
      ∀ other, other ∈ places ↔ fs.Admitted top p.config other ∧ other ≠ names := by
  obtain ⟨places, hlisting, hordered, hmem⟩ := h.exists_places
  refine ⟨places.filter (· ≠ names), ?_, hordered.filter _, fun other => by simp [hmem]⟩
  rw [hlisting, List.filter_map]
  congr 1
  refine List.filter_congr fun other hother => decide_eq_decide.mpr (not_congr ?_)
  obtain ⟨content', hfile', -⟩ := (hmem other).mp hother
  refine ⟨fun heq => ?_, fun heq => by rw [heq]⟩
  exact h.names_inj hfile' hfile heq

/-- Another content of one file changes nothing about which other files are listed. -/
theorem Hosts.listing_put (h : fs.Hosts p.root top)
    (hfile : fs.item? (top ++ names) = some (.file content)) (new : ByteArray) :
    ((fs.put (top ++ names) (.file new)).listing p).filter (· ≠ "/".intercalate names) =
      (fs.listing p).filter (· ≠ "/".intercalate names) := by
  have hfile' : (fs.put (top ++ names) (.file new)).item? (top ++ names) = some (.file new) := by
    rw [item?_put (ne_nil_of_file hfile), if_pos rfl]
  obtain ⟨places, hpaths, hordered, hmem⟩ := h.exists_places_ne hfile
  obtain ⟨places', hpaths', hordered', hmem'⟩ := (h.put hfile new).exists_places_ne hfile'
  have hsame : places' = places := by
    refine hordered'.eq_of_mem_iff hordered fun other => ?_
    rw [hmem', hmem]
    exact and_congr_left fun hne => admitted_put_iff hfile hne new
  rw [hpaths, hpaths', hsame]

/-- Another content of one file changes nothing of what another listed file adds to a report. -/
theorem Hosts.entry_put (h : fs.Hosts p.root top)
    (hfile : fs.item? (top ++ names) = some (.file content)) (new : ByteArray)
    (hpath : path ∈ (fs.listing p).filter (· ≠ "/".intercalate names)) :
    (fs.put (top ++ names) (.file new)).entry reader p.root path = fs.entry reader p.root path := by
  obtain ⟨places, hpaths, -, hmem⟩ := h.exists_places_ne hfile
  rw [hpaths] at hpath
  obtain ⟨other, hother, rfl⟩ := List.mem_map.mp hpath
  obtain ⟨⟨content', hfile', -⟩, hne⟩ := (hmem other).mp hother
  have hplace : top ++ other ≠ top ++ names := fun heq => hne (List.append_cancel_left heq)
  have hkept := kept_put hfile hplace new
  have hlook := h.sound.look_below h.located (h.ne_nil hfile') hfile'
  have hlook' := (h.put hfile new).sound.look_below (h.put hfile new).located (h.ne_nil hfile')
    (hkept.item.trans hfile')
  rw [entry, entry, read_eq_of_look hlook, read_eq_of_look hlook']

theorem files_scan_ne (reader : Source.Reader) (fs : Files) (p : Project) (gone : String) :
    ((scan reader Files.disk p).run fs).1.files.filter (·.path ≠ gone) =
      ((fs.listing p).filter (· ≠ gone)).flatMap fun path => (fs.entry reader p.root path).1 := by
  rw [scan_run]
  exact filter_flatMap_ne (fun _ _ => path_of_mem_files) gone _

theorem errors_scan_ne (reader : Source.Reader) (fs : Files) (p : Project) (gone : String) :
    ((scan reader Files.disk p).run fs).1.errors.filter (·.path ≠ gone) =
      ((fs.listing p).filter (· ≠ gone)).flatMap fun path => (fs.entry reader p.root path).2 := by
  rw [scan_run]
  exact filter_flatMap_ne (fun _ _ => path_of_mem_errors) gone _

/-- Another content of one file changes nothing of what a scan reports of the others. -/
theorem Hosts.scan_put (h : fs.Hosts p.root top)
    (hfile : fs.item? (top ++ names) = some (.file content)) (new : ByteArray) :
    (((scan reader Files.disk p).run (fs.put (top ++ names) (.file new))).1.files.filter
        (·.path ≠ "/".intercalate names) =
      ((scan reader Files.disk p).run fs).1.files.filter (·.path ≠ "/".intercalate names)) ∧
    (((scan reader Files.disk p).run (fs.put (top ++ names) (.file new))).1.errors.filter
        (·.path ≠ "/".intercalate names) =
      ((scan reader Files.disk p).run fs).1.errors.filter (·.path ≠ "/".intercalate names)) := by
  rw [files_scan_ne, files_scan_ne, errors_scan_ne, errors_scan_ne, h.listing_put hfile new]
  constructor
  · refine List.flatMap_congr fun path hpath => ?_
    rw [h.entry_put hfile new hpath]
  · refine List.flatMap_congr fun path hpath => ?_
    rw [h.entry_put hfile new hpath]

end Files

/-- Whatever reads the sources, a scan is the ordered image of its project, file by file. It lists
    the admitted files, each once, in strict order of their names, and reports of each what its
    extraction gives. Another content of one file changes nothing of what is reported of the
    others. -/
theorem scan_reflects (reader : Source.Reader) {fs : Files} {p : Project} {top : Place}
    (h : fs.Hosts p.root top) :
    (∃ places : List Place, fs.listing p = places.map ("/".intercalate ·) ∧
        places.Pairwise (List.Lex (· < ·)) ∧
        ∀ names, names ∈ places ↔ fs.Admitted top p.config names) ∧
      (fs.listing p).Nodup ∧
      Reflects reader fs p.root (fs.listing p) ((scan reader Files.disk p).run fs).1 ∧
      ((scan reader Files.disk p).run fs).2 = fs ∧
      ∀ names old new, fs.item? (top ++ names) = some (.file old) →
        ((scan reader Files.disk p).run (fs.put (top ++ names) (.file new))).1.files.filter
            (·.path ≠ "/".intercalate names) =
          ((scan reader Files.disk p).run fs).1.files.filter (·.path ≠ "/".intercalate names) ∧
        ((scan reader Files.disk p).run (fs.put (top ++ names) (.file new))).1.errors.filter
            (·.path ≠ "/".intercalate names) =
          ((scan reader Files.disk p).run fs).1.errors.filter (·.path ≠ "/".intercalate names) := by
  refine ⟨h.exists_places, h.nodup_listing, fs.reflects_scan reader p, ?_,
    fun names old new hfile => ?_⟩
  · rw [Files.scan_run]
  · exact h.scan_put hfile new

/-- A project with files that are hidden, installed, of another kind, too large or broken. -/
def mixed : Files where
  items := [(["proj"], .folder), (["proj", "main.ts"], .file "f();".toUTF8),
    (["proj", "large.ts"], .file "f(1, 2);".toUTF8), (["proj", "notes.md"], .file "".toUTF8),
    (["proj", "lib"], .folder), (["proj", "lib", "broken.ts"], .file ⟨#[0xff]⟩),
    (["proj", "lib", ".hidden.ts"], .file "".toUTF8), (["proj", "node_modules"], .folder),
    (["proj", "node_modules", "x.ts"], .file "".toUTF8)]
  work := []

/-- It looks at small files of one kind. -/
def mixedProject : Project where
  root := "proj"
  config := { version := 1, rootDir := "proj", includes := ["**/*.ts"], excludes := [],
              maxFileSize := 5 }

theorem hosts_mixed : mixed.Hosts "proj" ["proj"] := by
  have hsound : mixed.Sound := by
    refine ⟨Files.rooted_of_items ?_, by decide, by decide⟩
    simp only [mixed, List.forall_mem_cons]
    exact ⟨rfl, rfl, rfl, rfl, rfl, rfl, rfl, rfl, rfl, nofun⟩
  refine ⟨hsound, rfl, rfl, fun names content hfile name hname => ?_⟩
  have hplain : ∀ entry ∈ mixed.items, ∀ name ∈ entry.1, '\\' ∉ name.toList := by decide
  have hmem := (hsound.item?_eq_some_iff (Files.ne_nil_of_file hfile)).mp hfile
  exact hplain _ hmem name (List.mem_append_right _ hname)

/-- The broken file is listed and reported as an error, the hidden one is not listed, and whatever
    is written into the main file, the errors of the other files stay the same. -/
theorem mixed_reflects :
    mixed.Hosts mixedProject.root ["proj"] ∧
      "lib/broken.ts" ∈ mixed.listing mixedProject ∧
      "lib/.hidden.ts" ∉ mixed.listing mixedProject ∧
      "lib/broken.ts" ∈
        ((scan TypeScript.reader Files.disk mixedProject).run mixed).1.errors.map (·.path) ∧
      ∀ new,
        ((scan TypeScript.reader Files.disk mixedProject).run
            (mixed.put ["proj", "main.ts"] (.file new))).1.errors.filter (·.path ≠ "main.ts") =
          ((scan TypeScript.reader Files.disk mixedProject).run mixed).1.errors.filter
            (·.path ≠ "main.ts") := by
  have h : mixed.Hosts mixedProject.root ["proj"] := hosts_mixed
  obtain ⟨⟨places, hlisting, -, hmem⟩, -, hreflects, -, hother⟩ :=
    scan_reflects TypeScript.reader h
  have hbroken : "lib/broken.ts" ∈ mixed.listing mixedProject := by
    rw [hlisting]
    refine List.mem_map.mpr ⟨["lib", "broken.ts"], (hmem _).mpr ?_, by decide⟩
    exact ⟨⟨#[0xff]⟩, rfl, by decide, by decide +kernel, by decide⟩
  refine ⟨h, hbroken, fun hhidden => ?_, (hreflects.error_iff _ hbroken).mpr ⟨_, rfl⟩,
    fun new => (hother ["main.ts"] _ new rfl).2⟩
  rw [hlisting] at hhidden
  obtain ⟨names, hnames, hpath⟩ := List.mem_map.mp hhidden
  obtain ⟨content, hfile, hskip, -⟩ := (hmem names).mp hnames
  have heq : names = ["lib", ".hidden.ts"] := by
    rw [← names_intercalate (h.ne_nil hfile) (h.proper hfile), hpath]
    decide
  subst heq
  exact (hskip ".hidden.ts" (by decide)).1 rfl

end Stepflow.Project
