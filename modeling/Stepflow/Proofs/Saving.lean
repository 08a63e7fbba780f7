import Mathlib
import Stepflow.Project.Scan
import Stepflow.Proofs.ChartJson
import Stepflow.Proofs.Places

/-!
# Saving a configuration

A configuration is saved as a whole or not at all, whichever of the operations on the way fails.

* `Files.Grown`: what the making of folders adds.
* `Files.Straight`: every `..` of a root comes behind folders that are there.
* `Mishaps`: which operations of a disk are made to fail, and how far they get.
* `Session`: a file system with all states that it went through.
* `Saving`: the ways in which a save can end.

Results:
* `Files.makeFolders_grown`: folders are made only on the way, and only where nothing is.
* `Config.decode_write`: a configuration is read back from its text.
* `loadConfig_run`: what is loaded depends on the path of the configuration alone.
* `Files.makePath_cases`: a file on the way stops a path before anything is made.
* `Saving.look_saved`, `Saving.look_config`: what a reader of the configuration sees after each
  operation.
* `saveConfig_allOrNothing`: after a save that succeeds the new configuration is loaded, after one
  that fails what was loaded before, and no state between shows anything else.
* `failedSave_reveals`: where a `..` of the root comes behind a folder that is missing, a save that
  fails can change what is loaded.
-/

namespace Stepflow.Project

namespace Files

variable {fs fs' : Files} {place : Place} {names : List String}

/-! ## Made folders -/

theorem stepInto_eq_ok {name : String} {next : Place}
    (h : fs.stepInto place name = .ok (fs', next)) :
    fs.item? place = some .folder ∧ onward place name = next ∧
      (fs.item? next = some .folder ∧ fs' = fs ∨
        fs.item? next = none ∧ fs' = fs.put next .folder) := by
  rw [stepInto] at h
  cases hstep : fs.step place name with
  | error fault => simp [hstep, bind, Except.bind] at h
  | ok place' =>
    obtain ⟨hfolder, rfl⟩ := step_eq_ok_iff.mp hstep
    simp only [hstep, bind, Except.bind] at h
    split at h
    · rename_i hnext
      obtain ⟨rfl, rfl⟩ := Prod.mk.inj (Except.ok.inj h)
      exact ⟨hfolder, rfl, .inl ⟨hnext, rfl⟩⟩
    · cases h
    · rename_i hnext
      obtain ⟨rfl, rfl⟩ := Prod.mk.inj (Except.ok.inj h)
      exact ⟨hfolder, rfl, .inr ⟨hnext, rfl⟩⟩

/-- Folders were made at places on the way along the names at which nothing was, and everything
    else is as it was. -/
structure Grown (fs fs' : Files) (place : Place) (names : List String) : Prop where
  work : fs'.work = fs.work
  item : ∀ p, fs'.item? p = fs.item? p ∨
    fs.item? p = none ∧ fs'.item? p = some .folder ∧
      ∃ before, before <+: names ∧ before.foldl onward place = p

theorem Grown.folders (h : Grown fs fs' place names) (p : Place)
    (hfolder : fs.item? p = some .folder) : fs'.item? p = some .folder := by
  rcases h.item p with hsame | ⟨-, hnew, -⟩
  · rw [hsame, hfolder]
  · exact hnew

theorem Grown.cons {fs₁ : Files} {name : String}
    (hstep : fs.stepInto place name = .ok (fs₁, onward place name))
    (h : Grown fs₁ fs' (onward place name) names) : Grown fs fs' place (name :: names) := by
  obtain ⟨-, -, hstep⟩ := stepInto_eq_ok hstep
  have hwork : fs₁.work = fs.work := by
    rcases hstep with ⟨-, rfl⟩ | ⟨-, rfl⟩ <;> rfl
  have hfirst : ∀ p, fs₁.item? p = fs.item? p ∨
      fs.item? p = none ∧ fs₁.item? p = some .folder ∧ onward place name = p := by
    intro p
    rcases hstep with ⟨-, rfl⟩ | ⟨hnone, rfl⟩
    · exact .inl rfl
    · rw [item?_put (by rintro heq; simp [heq] at hnone)]
      split
      · rename_i heq
        exact .inr ⟨heq ▸ hnone, rfl, heq.symm⟩
      · exact .inl rfl
  refine ⟨h.work.trans hwork, fun p => ?_⟩
  rcases h.item p with hsame | ⟨hnone, hnew, before, hbefore, hp⟩
  · rw [hsame]
    rcases hfirst p with hold | ⟨hnone, hnew, hp⟩
    · exact .inl hold
    · exact .inr ⟨hnone, hnew, [name], List.prefix_append [name] names, hp⟩
  · rcases hfirst p with hold | ⟨-, hfolder, -⟩
    · refine .inr ⟨hold ▸ hnone, hnew, name :: before, ?_, hp⟩
      exact List.cons_prefix_cons.mpr ⟨rfl, hbefore⟩
    · rw [hfolder] at hnone
      cases hnone

theorem makeFolders_grown (fs : Files) (place : Place) (names : List String) :
    Grown fs (fs.makeFolders place names).2 place names := by
  induction names generalizing fs place with
  | nil => exact ⟨rfl, fun _ => .inl rfl⟩
  | cons name names ih =>
    rw [makeFolders]
    split
    · rename_i fs₁ next hstep
      obtain ⟨-, rfl, -⟩ := stepInto_eq_ok hstep
      exact .cons hstep (ih fs₁ _)
    · exact ⟨rfl, fun _ => .inl rfl⟩

/-- Where a way ends at a file, no folders are made along it. -/
theorem makeFolders_of_notFolder (h : names.foldlM fs.step place = .error .notFolder) :
    ∃ fault, fs.makeFolders place names = (.error fault, fs) := by
  induction names generalizing place with
  | nil => cases h
  | cons name names ih =>
    rw [List.foldlM_cons] at h
    rw [makeFolders, stepInto]
    cases hstep : fs.step place name with
    | error fault => exact ⟨fault, rfl⟩
    | ok next =>
      rw [hstep] at h
      change names.foldlM fs.step next = _ at h
      cases hnext : fs.item? next with
      | none =>
        -- the way would end at a place where nothing is, and not at a file
        cases names with
        | nil => cases h
        | cons name' names =>
          rw [List.foldlM_cons, step_eq, enter, hnext] at h
          cases h
      | some item =>
        cases item with
        | file content => exact ⟨.alreadyThere, by simp [bind, Except.bind, hnext]⟩
        | folder =>
          obtain ⟨fault, hfault⟩ := ih h
          exact ⟨fault, by simpa [bind, Except.bind, hnext] using hfault⟩

/-- Making a path changes the files as making the folders along its names does, and succeeds if that
    does. -/
theorem makePath_cases (fs : Files) (path : String) :
    fs.makePath path = fs.makeFolders (fs.origin path) (Files.names path) ∨
      fs.makePath path = (.error .notFolder, fs) ∧
        ∃ fault, fs.makeFolders (fs.origin path) (Files.names path) = (.error fault, fs) := by
  rw [makePath]
  split
  · rename_i hlocate
    rw [locate] at hlocate
    split at hlocate
    · cases hlocate
    · exact .inr ⟨rfl, makeFolders_of_notFolder hlocate⟩
  · exact .inl rfl

theorem makePath_eq_ok_iff {path : String} : fs.makePath path = (.ok (), fs') ↔
    fs.makeFolders (fs.origin path) (Files.names path) = (.ok (), fs') := by
  rcases fs.makePath_cases path with h | ⟨h, fault, h'⟩
  · rw [h]
  · simp [h, h']

theorem makePath_files (fs : Files) (path : String) :
    (fs.makePath path).2 = (fs.makeFolders (fs.origin path) (Files.names path)).2 := by
  rcases fs.makePath_cases path with h | ⟨h, fault, h'⟩
  · rw [h]
  · rw [h, h']

/-- Where every `..` comes behind folders that are there, folders are made only around the end of
    the way. -/
theorem Grown.isPrefix (h : Grown fs fs' place names)
    (hup : ∀ before, before ++ [".."] <+: names → fs.Leads place (before ++ [".."])) (p : Place) :
    fs'.item? p = fs.item? p ∨ p <+: names.foldl onward place := by
  rcases h.item p with hsame | ⟨hnone, -, before, ⟨after, rfl⟩, rfl⟩
  · exact .inl hsame
  · refine .inr ?_
    rw [List.foldl_append]
    apply isPrefix_foldl_onward
    intro hmem
    obtain ⟨x, y, rfl⟩ := List.append_of_mem hmem
    -- the way leads on from the new folder to a `..`, so the folder was there
    have hleads := hup (before ++ x) ⟨y, by simp⟩
    rw [List.append_assoc, leads_append] at hleads
    have hfolder : fs.item? (before.foldl onward place) = some .folder := by
      cases x with
      | nil => exact (leads_cons.mp hleads.2).1
      | cons name x => exact (leads_cons.mp hleads.2).1
    rw [hfolder] at hnone
    cases hnone

/-- Where every `..` comes behind folders that are there, a folder at the end of the way is reached
    through folders. -/
theorem leads_of_folder (h : fs.Rooted)
    (hup : ∀ before, before ++ [".."] <+: names → fs.Leads place (before ++ [".."]))
    (hfolder : fs.item? (names.foldl onward place) = some .folder) : fs.Leads place names := by
  induction names using List.reverseRecOn with
  | nil => exact leads_nil
  | append_singleton names name ih =>
    by_cases hname : name = ".."
    · exact hname ▸ hup names (hname ▸ List.prefix_rfl)
    · rw [List.foldl_append, List.foldl_cons, List.foldl_nil, onward] at hfolder
      have hlast : fs.item? (names.foldl onward place) = some .folder := by
        split at hfolder
        · exact hfolder
        · rw [if_neg (by simpa using hname)] at hfolder
          exact h _ name (by simp [hfolder])
      have hleads := ih (fun before hpre => hup before (hpre.trans (List.prefix_append _ _))) hlast
      exact leads_append.mpr ⟨hleads, leads_cons.mpr ⟨hlast, leads_nil⟩⟩

/-- Folders that could all be made lead to the end of the way. -/
theorem makeFolders_leads (hne : names ≠ []) (h : fs.makeFolders place names = (.ok (), fs')) :
    fs'.Leads place names ∧ fs'.item? (names.foldl onward place) = some .folder := by
  induction names generalizing fs place with
  | nil => exact absurd rfl hne
  | cons name names ih =>
    have hgrown := makeFolders_grown fs place (name :: names)
    rw [h] at hgrown
    rw [makeFolders] at h
    split at h
    · rename_i fs₁ next hstep
      obtain ⟨hfolder, rfl, hnext⟩ := stepInto_eq_ok hstep
      rw [leads_cons, and_assoc]
      refine ⟨hgrown.folders place hfolder, ?_⟩
      cases names with
      | nil =>
        obtain ⟨-, rfl⟩ := Prod.mk.inj h
        refine ⟨leads_nil, ?_⟩
        rcases hnext with ⟨hthere, rfl⟩ | ⟨hnone, rfl⟩
        · exact hthere
        · rw [List.foldl_cons, List.foldl_nil, item?_put (by rintro heq; simp [heq] at hnone),
            if_pos rfl]
      | cons name' names => exact ih (by simp) h
    · cases h

theorem Rooted.makeFolders (h : fs.Rooted) (place : Place) (names : List String) :
    (fs.makeFolders place names).2.Rooted := by
  induction names generalizing fs place with
  | nil => exact h
  | cons name names ih =>
    rw [Files.makeFolders]
    split
    · rename_i fs₁ next hstep
      refine ih ?_ next
      obtain ⟨hfolder, rfl, ⟨-, rfl⟩ | ⟨hnone, rfl⟩⟩ := stepInto_eq_ok hstep
      · exact h
      · rw [h.onward_of_none hfolder hnone]
        exact h.put hfolder fun _ => rfl
    · exact h

/-! ## Written files -/

theorem write_eq_ok {path : String} {content : ByteArray} (h : fs.write path content = .ok fs') :
    fs.locate path = .ok (fs.target path) ∧ fs.item? (fs.target path) ≠ some .folder ∧
      fs' = fs.put (fs.target path) (.file content) := by
  rw [write] at h
  cases hlocate : fs.locate path with
  | error fault => simp [hlocate, bind, Except.bind] at h
  | ok place =>
    obtain ⟨-, -, rfl⟩ := locate_eq_ok_iff.mp hlocate
    simp only [hlocate, bind, Except.bind] at h
    split at h
    · cases h
    · rename_i hne
      exact ⟨rfl, hne, (Except.ok.inj h).symm⟩

/-- A path that leads somewhere can be written, unless it leads to a folder. -/
theorem exists_write_iff {path : String} (hpath : path ≠ "")
    (hleads : fs.Leads (fs.origin path) (Files.names path)) (content : ByteArray) :
    (∃ fs', fs.write path content = .ok fs') ↔ fs.item? (fs.target path) ≠ some .folder := by
  refine ⟨fun ⟨fs', h⟩ => (write_eq_ok h).2.1, fun h => ?_⟩
  refine ⟨fs.put (fs.target path) (.file content), ?_⟩
  simp [write, locate_eq_ok_iff.mpr ⟨hpath, hleads, rfl⟩, bind, Except.bind]

theorem item?_write {path : String} {content : ByteArray} (h : fs.write path content = .ok fs')
    (p : Place) :
    fs'.item? p = if p = fs.target path then some (.file content) else fs.item? p := by
  obtain ⟨-, hfile, rfl⟩ := write_eq_ok h
  refine item?_put ?_ _ p
  intro heq
  exact hfile (by rw [heq]; rfl)

theorem folders_write {path : String} {content : ByteArray} (h : fs.write path content = .ok fs')
    (p : Place) (hp : fs.item? p = some .folder) : fs'.item? p = some .folder := by
  rw [item?_write h, if_neg, hp]
  rintro rfl
  exact (write_eq_ok h).2.1 hp

theorem work_write {path : String} {content : ByteArray} (h : fs.write path content = .ok fs') :
    fs'.work = fs.work := by
  obtain ⟨-, -, rfl⟩ := write_eq_ok h
  rfl

/-- Writing a file keeps everything but the file. -/
theorem kept_write {path : String} {content : ByteArray} (h : fs.write path content = .ok fs')
    (hne : place ≠ fs.target path) : Kept fs fs' place where
  work := work_write h
  folders := folders_write h
  item := by rw [item?_write h, if_neg hne]

theorem look_write {path : String} {content : ByteArray} (h : fs.write path content = .ok fs') :
    fs'.look path = some (.file content) := by
  obtain ⟨hpath, hleads, -⟩ := locate_eq_ok_iff.mp (write_eq_ok h).1
  have hleads' := hleads.mono (folders_write h)
  rw [← origin_eq path (work_write h)] at hleads'
  rw [look_of_leads hpath hleads', item?_write h, if_pos (target_eq path (work_write h))]

/-- A file that was renamed is found under its new name. -/
theorem look_rename {source target : String} {content : ByteArray}
    (hsource : fs.look source = some (.file content)) (h : fs.rename source target = .ok fs') :
    fs'.look target = some (.file content) := by
  rw [rename, read_eq_of_look hsource] at h
  cases hlocate : fs.locate source with
  | error fault => simp [hlocate, bind, Except.bind] at h
  | ok place =>
    simp only [hlocate, bind, Except.bind] at h
    exact look_write h

/-! ## Roots -/

/-- Every `..` of a root comes behind folders that are there. -/
def Straight (fs : Files) (root : String) : Prop :=
  ∀ before, before ++ [".."] <+: Files.names root → fs.Leads (fs.origin root) (before ++ [".."])

end Files

theorem names_folderPath (root : String) :
    Files.names (folderPath root) = stem root ++ [".codeflow"] := by
  rw [folderPath, names_joinPath, Files.names_eq_singleton (by decide)]

theorem names_inFolder (root : String) {name : String} (h : Proper name) :
    Files.names (joinPath (folderPath root) name) = Files.names (folderPath root) ++ [name] := by
  rw [names_joinPath, Files.names_eq_singleton h.plain, folderPath,
    stem_joinPath (by decide) (by decide), names_joinPath]

namespace Files

variable {fs fs' : Files} {root : String}

theorem Straight.leads_folder (h : fs.Straight root) (before : List String)
    (hpre : before ++ [".."] <+: Files.names (folderPath root)) :
    fs.Leads (fs.origin (folderPath root)) (before ++ [".."]) := by
  rw [names_folderPath] at hpre
  rw [folderPath, origin_joinPath (by decide)]
  rcases List.prefix_concat_iff.mp hpre with heq | hpre
  · exact absurd (List.append_inj' heq rfl).2 (by decide)
  · exact h before (hpre.trans (stem_isPrefix root))

theorem origin_inFolder (root : String) {name : String} (h : Proper name) :
    fs.origin (joinPath (folderPath root) name) = fs.origin (folderPath root) :=
  origin_joinPath fun hhead => h.plain (List.mem_of_mem_head? hhead)

theorem target_inFolder (root : String) {name : String} (h : Proper name) :
    fs.target (joinPath (folderPath root) name) = fs.target (folderPath root) ++ [name] := by
  rw [target, target, names_inFolder root h, List.foldl_append, origin_inFolder root h]
  exact onward_proper h _

theorem leads_inFolder (root : String) {name : String} (h : Proper name) :
    fs.Leads (fs.origin (joinPath (folderPath root) name))
        (Files.names (joinPath (folderPath root) name)) ↔
      fs.Leads (fs.origin (folderPath root)) (Files.names (folderPath root)) ∧
        fs.item? (fs.target (folderPath root)) = some .folder := by
  rw [origin_inFolder root h, names_inFolder root h, leads_append, leads_cons]
  exact and_congr_right fun _ => and_iff_left leads_nil

theorem proper_config : Proper "config.json" := by
  decide

theorem proper_staged : Proper "config.tmp" := by
  decide

/-- Where there is something in the place of the configuration, the path of the configuration leads
    there. -/
theorem Straight.leads_config (h : fs.Straight root) (hrooted : fs.Rooted)
    (hsome : (fs.item? (fs.target (configPath root))).isSome) :
    fs.Leads (fs.origin (configPath root)) (Files.names (configPath root)) := by
  rw [configPath, target_inFolder root proper_config] at hsome
  have hfolder := hrooted _ _ hsome
  exact (leads_inFolder root proper_config).mpr
    ⟨leads_of_folder hrooted h.leads_folder hfolder, hfolder⟩

theorem configPath_ne_empty (root : String) : configPath root ≠ "" :=
  joinPath_ne_empty (by decide)

theorem stagedPath_ne_empty (root : String) : stagedPath root ≠ "" :=
  joinPath_ne_empty (by decide)

/-- A reader of the configuration does not notice what is kept. -/
theorem Straight.look_config (h : fs.Straight root) (hrooted : fs.Rooted)
    (hkept : Kept fs fs' (fs.target (configPath root))) :
    fs'.look (configPath root) = fs.look (configPath root) :=
  look_eq_of_kept (configPath_ne_empty root) hkept (h.leads_config hrooted)

/-- Making the folder of a project, or a part of the way to it, keeps what is in the folder. -/
theorem Straight.kept_makeFolders (h : fs.Straight root) {names : List String}
    (hnames : names <+: Files.names (folderPath root)) (name : String) :
    Kept fs (fs.makeFolders (fs.origin (folderPath root)) names).2
      (fs.target (folderPath root) ++ [name]) := by
  have hgrown := makeFolders_grown fs (fs.origin (folderPath root)) names
  refine ⟨hgrown.work, hgrown.folders, ?_⟩
  have hwhole : Grown fs (fs.makeFolders (fs.origin (folderPath root)) names).2
      (fs.origin (folderPath root)) (Files.names (folderPath root)) := by
    refine ⟨hgrown.work, fun p => (hgrown.item p).imp id ?_⟩
    rintro ⟨hnone, hnew, before, hbefore, hp⟩
    exact ⟨hnone, hnew, before, hbefore.trans hnames, hp⟩
  refine (hwhole.isPrefix h.leads_folder _).resolve_right fun hpre => ?_
  -- what is in the folder is not around it
  have hlength := hpre.length_le
  rw [List.length_append, target] at hlength
  simp at hlength

theorem target_config (fs : Files) (root : String) :
    fs.target (configPath root) = fs.target (folderPath root) ++ ["config.json"] :=
  target_inFolder root proper_config

theorem target_staged (fs : Files) (root : String) :
    fs.target (stagedPath root) = fs.target (folderPath root) ++ ["config.tmp"] :=
  target_inFolder root proper_staged

theorem target_config_ne_staged (fs : Files) (root : String) :
    fs.target (configPath root) ≠ fs.target (stagedPath root) := by
  rw [target_config, target_staged]
  intro heq
  exact absurd (List.append_cancel_left heq) (by decide)

end Files

/-! ## Loading -/

/-- The numbers of the configuration have 32 and 64 bits. -/
structure Config.Portable (c : Config) : Prop where
  version : c.version < 2 ^ 32
  maxFileSize : c.maxFileSize < 2 ^ 64

namespace Config

open Json (Decoder)
open Json.Decoder (Carries Enters)

theorem carries_word {bits n : Nat} (h : n < 2 ^ bits) (hbits : bits ≤ 64) (room : Nat) :
    Carries (Decoder.word bits) room (.int n) n where
  decoded := by
    have hn : (0 : Int) ≤ n ∧ (n : Int) < (Nat.pow 2 bits : Nat) :=
      ⟨Int.natCast_nonneg n, Int.ofNat_lt.mpr h⟩
    rw [Decoder.word, Decoder.int, if_pos hn]
    rfl
  fits := by
    have hle : 2 ^ bits ≤ 2 ^ 64 := Nat.pow_le_pow_right (by decide) hbits
    rw [Json.Value.Fits]
    omega

theorem carries_texts (room : Nat) (texts : List String) :
    Carries (Decoder.list Decoder.text) (room + 1) (.array (texts.map .string)) texts := by
  have h : Carries (Decoder.list Decoder.text) (room + 1) (.array (texts.map .string))
      (texts.map id) := .list fun s _ => .text room s
  rwa [List.map_id] at h

/-- A configuration is read as it was written. -/
theorem carries {c : Config} (h : c.Portable) (room : Nat) :
    Carries decoder (room + 2) c.json c := by
  have henters := (.member "version" rfl (carries_word h.version (by decide) _) :
      Enters slots (room + 1) _ {} _ _)
    |>.append (.member "root_dir" rfl (.text _ c.rootDir))
    |>.append (.member "include" rfl (carries_texts room c.includes))
    |>.append (.member "exclude" rfl (carries_texts room c.excludes))
    |>.append (.member "max_file_size" rfl (carries_word h.maxFileSize (by decide) _))
  exact (Carries.record (by decide) henters).bind rfl

theorem decode_write {c : Config} (h : c.Portable) (pretty : Bool) :
    Json.decode decoder (Json.write pretty c.json) = .ok c := by
  have hcarries : Carries decoder Json.maxDepth c.json c := carries h 125
  rw [Json.decode, Json.readText_write hcarries.fits]
  dsimp only
  rw [hcarries.decoded]
  rfl

end Config

theorem textOf_toUTF8 (s : String) : textOf s.toUTF8 = .ok s := by
  have h : String.fromUTF8? s.toUTF8 = some s := by
    rw [String.fromUTF8?]
    exact dif_pos s.isValidUTF8
  rw [textOf, h]

/-- What is loaded if the path of the configuration leads to the given thing. -/
def configFrom (root : String) : Option Item → Except Error Config
  | none => .ok (Config.standard root)
  | some .folder => .error (.config .read (configPath root) Fault.isFolder.message)
  | some (.file content) =>
    match textOf content with
    | .error fault => .error (.config .read (configPath root) fault.message)
    | .ok text =>
      match Json.decode Config.decoder text with
      | .ok config => .ok config
      | .error fault => .error (.config .parse (configPath root) (faultText fault))

/-- What is loaded depends on the path of the configuration alone, and loading changes nothing. -/
theorem loadConfig_run (fs : Files) (root : String) :
    (loadConfig Files.disk root).run fs = (configFrom root (fs.look (configPath root)), fs) := by
  have hhas : (Files.disk.has (configPath root)).run fs =
      pure ((fs.look (configPath root)).isSome, fs) := by
    change (_, fs) = _
    rw [Files.look]
    cases fs.locate (configPath root) <;> rfl
  have hread : (Files.disk.readText (configPath root)).run fs =
      pure ((fs.read (configPath root)).bind textOf, fs) := rfl
  rw [loadConfig, StateT.run_bind, hhas, pure_bind]
  cases hlook : fs.look (configPath root) with
  | none => rfl
  | some item =>
    simp only [Option.isSome_some, if_true]
    rw [StateT.run_bind, hread, pure_bind, Files.read_eq_of_look hlook]
    cases item with
    | folder => rfl
    | file content =>
      simp only [Except.bind, configFrom]
      cases textOf content with
      | error fault => rfl
      | ok text =>
        dsimp only
        cases Json.decode Config.decoder text <;> rfl

/-- What is loaded for a root. -/
def Files.loaded (fs : Files) (root : String) : Except Error Config :=
  ((loadConfig Files.disk root).run fs).1

theorem Files.loaded_eq (fs : Files) (root : String) :
    fs.loaded root = configFrom root (fs.look (configPath root)) := by
  rw [loaded, loadConfig_run]

theorem configFrom_write {config : Config} (h : config.Portable) (root : String) :
    configFrom root (some (.file (Json.write true config.json).toUTF8)) = .ok config := by
  rw [configFrom, textOf_toUTF8]
  dsimp only
  rw [Config.decode_write h]

/-! ## Mishaps -/

/-- The operations of a disk that are made to fail, and how far each of them gets: folders are made
    along the first few names, and a file is not written at all or with some other content. -/
structure Mishaps where
  folders : Option (Fault × Nat) := none
  write : Option (Fault × Option ByteArray) := none
  rename : Option Fault := none

/-- A file system as it is now, and as it was after each change, the last one first. -/
structure Session where
  now : Files
  past : List Files

namespace Session

/-- The session before any change. -/
def start (fs : Files) : Session where
  now := fs
  past := []

/-- Looks at the files as they are now. -/
def view {α : Type} (x : StateM Files α) : StateM Session α := do
  return (x.run (← get).now).1

/-- Changes the files, and keeps them as they are then. -/
def act (f : Files → Except Fault Unit × Files) : StateM Session (Except Fault Unit) :=
  modifyGet fun s => ((f s.now).1, { now := (f s.now).2, past := (f s.now).2 :: s.past })

end Session

namespace Mishaps

/-- Makes folders, unless that is made to fail. -/
def makeFolders (w : Mishaps) (path : String) (fs : Files) : Except Fault Unit × Files :=
  match w.folders with
  | none => (Files.disk.createFolders path).run fs
  | some (fault, n) =>
    (.error fault, (fs.makeFolders (fs.origin path) ((Files.names path).take n)).2)

/-- Writes a file, unless that is made to fail. -/
def writeFile (w : Mishaps) (path text : String) (fs : Files) : Except Fault Unit × Files :=
  match w.write with
  | none => (Files.disk.write path text).run fs
  | some (fault, none) => (.error fault, fs)
  | some (fault, some part) => (.error fault, ((Files.change (·.write path part)).run fs).2)

/-- Renames a file, unless that is made to fail. -/
def renameFile (w : Mishaps) (source target : String) (fs : Files) : Except Fault Unit × Files :=
  match w.rename with
  | none => (Files.disk.rename source target).run fs
  | some fault => (.error fault, fs)

/-- The disk on which the operations fail. -/
def disk (w : Mishaps) : Disk (StateM Session) where
  has path := Session.view (Files.disk.has path)
  read path := Session.view (Files.disk.read path)
  createFolders path := Session.act (w.makeFolders path)
  write path text := Session.act (w.writeFile path text)
  rename source target := Session.act (w.renameFile source target)
  tree path := Session.view (Files.disk.tree path)
  workFolder := Session.view Files.disk.workFolder
  clock := Session.view Files.disk.clock

variable {w : Mishaps} {fs fs' : Files} {path text source target : String}

theorem makeFolders_eq_ok_iff : w.makeFolders path fs = (.ok (), fs') ↔
    w.folders = none ∧ fs.makeFolders (fs.origin path) (Files.names path) = (.ok (), fs') := by
  rw [makeFolders]
  split
  · rename_i hnone
    exact Files.makePath_eq_ok_iff.trans (and_iff_right hnone).symm
  · simp_all

theorem run_change_of_ok {f : Files → Except Fault Files} (h : f fs = .ok fs') :
    (Files.change f).run fs = (.ok (), fs') := by
  simp only [Files.change, StateT.run_modifyGet, h]
  rfl

theorem run_change_of_error {f : Files → Except Fault Files} {fault : Fault}
    (h : f fs = .error fault) : (Files.change f).run fs = (.error fault, fs) := by
  simp only [Files.change, StateT.run_modifyGet, h]
  rfl

theorem run_change_eq_ok_iff {f : Files → Except Fault Files} :
    (Files.change f).run fs = (.ok (), fs') ↔ f fs = .ok fs' := by
  refine ⟨fun h => ?_, run_change_of_ok⟩
  cases hf : f fs with
  | ok fs'' =>
    rw [run_change_of_ok hf] at h
    rw [(Prod.mk.inj h).2]
  | error fault =>
    rw [run_change_of_error hf] at h
    cases (Prod.mk.inj h).1

theorem writeFile_eq_ok_iff : w.writeFile path text fs = (.ok (), fs') ↔
    w.write = none ∧ fs.write path text.toUTF8 = .ok fs' := by
  rw [writeFile]
  split
  · rename_i hnone
    exact run_change_eq_ok_iff.trans (and_iff_right hnone).symm
  · simp_all
  · simp_all

theorem renameFile_eq_ok_iff : w.renameFile source target fs = (.ok (), fs') ↔
    w.rename = none ∧ fs.rename source target = .ok fs' := by
  rw [renameFile]
  split
  · rename_i hnone
    exact run_change_eq_ok_iff.trans (and_iff_right hnone).symm
  · simp_all

/-- A file that was not renamed is where it was. -/
theorem renameFile_of_error {fault : Fault}
    (h : w.renameFile source target fs = (.error fault, fs')) : fs' = fs := by
  rw [renameFile] at h
  split at h
  · change (Files.change (·.rename source target)).run fs = _ at h
    cases hf : fs.rename source target with
    | ok fs'' =>
      rw [run_change_of_ok (f := (·.rename source target)) hf] at h
      cases (Prod.mk.inj h).1
    | error fault' =>
      rw [run_change_of_error (f := (·.rename source target)) hf] at h
      exact (Prod.mk.inj h).2.symm
  · exact (Prod.mk.inj h).2.symm

theorem kept_change_write {content : ByteArray} {place : Place} (hne : place ≠ fs.target path) :
    Files.Kept fs ((Files.change (·.write path content)).run fs).2 place := by
  cases hf : fs.write path content with
  | ok fs'' =>
    rw [run_change_of_ok (f := (·.write path content)) hf]
    exact Files.kept_write hf hne
  | error fault =>
    rw [run_change_of_error (f := (·.write path content)) hf]
    exact .refl fs place

/-- However far the writing of a file gets, all else is kept. -/
theorem kept_writeFile (w : Mishaps) (text : String) {place : Place}
    (hne : place ≠ fs.target path) : Files.Kept fs (w.writeFile path text fs).2 place := by
  rw [writeFile]
  split
  · exact kept_change_write hne
  · exact .refl fs place
  · exact kept_change_write hne

/-- However far the making of folders gets, what is in the last one is kept. -/
theorem kept_makeFolders (w : Mishaps) {root : String} (h : fs.Straight root) (name : String) :
    Files.Kept fs (w.makeFolders (folderPath root) fs).2
      (fs.target (folderPath root) ++ [name]) := by
  rw [makeFolders]
  split
  · change Files.Kept fs (fs.makePath (folderPath root)).2 _
    rw [Files.makePath_files]
    exact h.kept_makeFolders List.prefix_rfl name
  · exact h.kept_makeFolders (List.take_prefix _ _) name

end Mishaps

/-! ## Saving -/

/-- The ways in which a save can end, with the files after each operation. -/
inductive Saving (w : Mishaps) (root : String) (config : Config) (fs : Files) :
    Except Error Unit → Session → Prop
  | uncreated {fault : Fault} {fs₁ : Files}
      (created : w.makeFolders (folderPath root) fs = (.error fault, fs₁)) :
      Saving w root config fs (.error (.config .create (folderPath root) fault.message))
        { now := fs₁, past := [fs₁] }
  | unwritten {fault : Fault} {fs₁ fs₂ : Files}
      (created : w.makeFolders (folderPath root) fs = (.ok (), fs₁))
      (written : w.writeFile (stagedPath root) (Json.write true config.json) fs₁ =
        (.error fault, fs₂)) :
      Saving w root config fs (.error (.config .write (stagedPath root) fault.message))
        { now := fs₂, past := [fs₂, fs₁] }
  | unreplaced {fault : Fault} {fs₁ fs₂ fs₃ : Files}
      (created : w.makeFolders (folderPath root) fs = (.ok (), fs₁))
      (written : w.writeFile (stagedPath root) (Json.write true config.json) fs₁ = (.ok (), fs₂))
      (replaced : w.renameFile (stagedPath root) (configPath root) fs₂ = (.error fault, fs₃)) :
      Saving w root config fs (.error (.config .replace (configPath root) fault.message))
        { now := fs₃, past := [fs₃, fs₂, fs₁] }
  | saved {fs₁ fs₂ fs₃ : Files}
      (created : w.makeFolders (folderPath root) fs = (.ok (), fs₁))
      (written : w.writeFile (stagedPath root) (Json.write true config.json) fs₁ = (.ok (), fs₂))
      (replaced : w.renameFile (stagedPath root) (configPath root) fs₂ = (.ok (), fs₃)) :
      Saving w root config fs (.ok ()) { now := fs₃, past := [fs₃, fs₂, fs₁] }

/-- A save on a disk whose operations may fail: its result, and the session that it leaves. -/
def Mishaps.save (w : Mishaps) (root : String) (config : Config) (fs : Files) :
    Except Error Unit × Session :=
  (saveConfig w.disk root config).run (Session.start fs)

theorem saving_save (w : Mishaps) (root : String) (config : Config) (fs : Files) :
    Saving w root config fs (w.save root config fs).1 (w.save root config fs).2 := by
  have hact : ∀ (f : Files → Except Fault Unit × Files) (s : Session), (Session.act f).run s =
      pure ((f s.now).1, { now := (f s.now).2, past := (f s.now).2 :: s.past }) := fun _ _ => rfl
  rw [Mishaps.save, saveConfig, StateT.run_bind, Mishaps.disk]
  dsimp only
  rw [hact, pure_bind, Session.start]
  cases created : w.makeFolders (folderPath root) fs with
  | mk result fs₁ =>
    cases result with
    | error fault => exact .uncreated created
    | ok =>
      dsimp only
      rw [StateT.run_bind, hact, pure_bind]
      cases written : w.writeFile (stagedPath root) (Json.write true config.json) fs₁ with
      | mk result fs₂ =>
        cases result with
        | error fault => exact .unwritten created written
        | ok =>
          dsimp only
          rw [StateT.run_bind, hact, pure_bind]
          cases replaced : w.renameFile (stagedPath root) (configPath root) fs₂ with
          | mk result fs₃ =>
            cases result with
            | error fault => exact .unreplaced created written replaced
            | ok => exact .saved created written replaced

namespace Saving

variable {w : Mishaps} {root : String} {config : Config} {fs fs₁ fs₂ : Files}
  {created written : Except Fault Unit} {result : Except Error Unit} {s : Session}

theorem look_created (hrooted : fs.Rooted) (hstraight : fs.Straight root)
    (h : w.makeFolders (folderPath root) fs = (created, fs₁)) :
    fs₁.look (configPath root) = fs.look (configPath root) := by
  have hkept := w.kept_makeFolders hstraight "config.json"
  rw [h, ← fs.target_config] at hkept
  exact hstraight.look_config hrooted hkept

theorem look_written (hrooted : fs.Rooted) (hstraight : fs.Straight root)
    (h : w.makeFolders (folderPath root) fs = (created, fs₁)) {text : String}
    (h' : w.writeFile (stagedPath root) text fs₁ = (written, fs₂)) :
    fs₂.look (configPath root) = fs.look (configPath root) := by
  have hkept := w.kept_makeFolders hstraight "config.json"
  rw [h, ← fs.target_config] at hkept
  have hkept' := w.kept_writeFile text (fs₁.target_config_ne_staged root)
  rw [h', Files.target_eq (configPath root) hkept.work] at hkept'
  exact hstraight.look_config hrooted (hkept.trans hkept')

/-- A reader of the configuration sees the new file after a save that succeeds. -/
theorem look_saved (h : Saving w root config fs result s) (hok : result = .ok ()) :
    s.now.look (configPath root) = some (.file (Json.write true config.json).toUTF8) := by
  subst hok
  cases h with
  | saved _ written replaced =>
    exact Files.look_rename (Files.look_write (Mishaps.writeFile_eq_ok_iff.mp written).2)
      (Mishaps.renameFile_eq_ok_iff.mp replaced).2

/-- A reader of the configuration sees the old file as long as a save has not succeeded. -/
theorem look_config (h : Saving w root config fs result s) (hrooted : fs.Rooted)
    (hstraight : fs.Straight root) :
    (result ≠ .ok () → s.now.look (configPath root) = fs.look (configPath root)) ∧
      ∀ f ∈ s.past, f = s.now ∨ f.look (configPath root) = fs.look (configPath root) := by
  cases h with
  | uncreated created =>
    have hlook₁ := look_created hrooted hstraight created
    simp [hlook₁]
  | unwritten created written =>
    have hlook₁ := look_created hrooted hstraight created
    have hlook₂ := look_written hrooted hstraight created written
    simp [hlook₁, hlook₂]
  | unreplaced created written replaced =>
    have hlook₁ := look_created hrooted hstraight created
    have hlook₂ := look_written hrooted hstraight created written
    have hsame := Mishaps.renameFile_of_error replaced
    simp [hsame, hlook₁, hlook₂]
  | saved created written _ =>
    have hlook₁ := look_created hrooted hstraight created
    have hlook₂ := look_written hrooted hstraight created written
    simp [hlook₁, hlook₂]

end Saving

/-! ## What a save needs -/

namespace Files

variable {fs fs' : Files} {root : String}

theorem createFolders_eq_ok_iff {path : String} : fs.createFolders path = .ok fs' ↔
    fs.makeFolders (fs.origin path) (Files.names path) = (.ok (), fs') := by
  rw [createFolders, ← makePath_eq_ok_iff]
  cases fs.makePath path with
  | mk result fs'' => cases result <;> simp

/-- Removing a file keeps everything else. -/
theorem Rooted.kept_remove (h : fs.Rooted) {place other : Place} {content : ByteArray}
    (hfile : fs.item? place = some (.file content)) (hother : ¬ place <+: other) :
    Kept fs (fs.remove place) other := by
  have hne : place ≠ [] := by
    rintro rfl
    exact hother List.nil_prefix
  refine ⟨rfl, fun p hp => ?_, by rw [item?_remove hne, if_neg hother]⟩
  rw [item?_remove hne, if_neg, hp]
  -- a folder is neither the file nor below it
  intro hpre
  by_cases heq : place = p
  · rw [heq, hp] at hfile
    cases hfile
  · rw [h.folder_of_isPrefix hpre heq (by simp [hp])] at hfile
    cases hfile

/-- The staged file takes the place of the configuration, unless a folder is there. -/
theorem exists_rename_staged_iff (hrooted : fs.Rooted) {content : ByteArray}
    (hstaged : fs.look (stagedPath root) = some (.file content)) :
    (∃ fs', fs.rename (stagedPath root) (configPath root) = .ok fs') ↔
      fs.item? (fs.target (configPath root)) ≠ some .folder := by
  have hread : fs.read (stagedPath root) = .ok content := read_eq_of_look hstaged
  cases hlocate : fs.locate (stagedPath root) with
  | error fault => simp [look, hlocate] at hstaged
  | ok place =>
    obtain ⟨hpath, hleads, rfl⟩ := locate_eq_ok_iff.mp hlocate
    rw [look_of_leads hpath hleads] at hstaged
    have hapart : ¬ fs.target (stagedPath root) <+: fs.target (configPath root) := by
      intro hpre
      refine fs.target_config_ne_staged root (hpre.eq_of_length ?_).symm
      simp [target_config, target_staged]
    have hkept := hrooted.kept_remove hstaged hapart
    have hway := ((leads_inFolder root proper_config).mpr
      ((leads_inFolder root proper_staged).mp hleads)).mono hkept.folders
    have hwrite : (∃ fs', (fs.remove (fs.target (stagedPath root))).write (configPath root)
          content = .ok fs') ↔
        (fs.remove (fs.target (stagedPath root))).item? (fs.target (configPath root)) ≠
          some .folder :=
      exists_write_iff (configPath_ne_empty root) hway content
    rw [rename, hread, hlocate, ← hkept.item]
    exact hwrite

/-- In a folder that could be made, the staged file can be written, unless a folder is there. -/
theorem Straight.exists_write_staged_iff (h : fs.Straight root)
    (hcreated : fs.createFolders (folderPath root) = .ok fs') (content : ByteArray) :
    (∃ fs'', fs'.write (stagedPath root) content = .ok fs'') ↔
      fs.item? (fs.target (stagedPath root)) ≠ some .folder := by
  rw [createFolders_eq_ok_iff] at hcreated
  have hkept := h.kept_makeFolders List.prefix_rfl "config.tmp"
  rw [hcreated, ← target_staged] at hkept
  have hleads := makeFolders_leads (by simp [names_folderPath]) hcreated
  rw [← origin_eq (folderPath root) hkept.work] at hleads
  have hway : fs'.Leads (fs'.origin (stagedPath root)) (Files.names (stagedPath root)) :=
    (leads_inFolder root proper_staged).mpr hleads
  rw [exists_write_iff (stagedPath_ne_empty root) hway, target_eq _ hkept.work, hkept.item]

theorem Rooted.write_staged (h : fs.Rooted) {content : ByteArray}
    (hwrite : fs.write (stagedPath root) content = .ok fs') : fs'.Rooted := by
  obtain ⟨hlocate, hfile, rfl⟩ := write_eq_ok hwrite
  have hleads := (locate_eq_ok_iff.mp hlocate).2.1
  rw [target_staged] at hfile ⊢
  exact h.put ((leads_inFolder root proper_staged).mp hleads).2 fun hfolder => absurd hfolder hfile

end Files

/-- A save succeeds if none of its operations is made to fail, the folder can be made, and the two
    files in it are no folders. -/
theorem Saving.eq_ok_iff {w : Mishaps} {root : String} {config : Config} {fs : Files}
    {result : Except Error Unit} {s : Session} (h : Saving w root config fs result s)
    (hrooted : fs.Rooted) (hstraight : fs.Straight root) :
    result = .ok () ↔ w = {} ∧ (∃ fs₁, fs.createFolders (folderPath root) = .ok fs₁) ∧
      fs.item? (fs.target (stagedPath root)) ≠ some .folder ∧
      fs.item? (fs.target (configPath root)) ≠ some .folder := by
  -- what the last operation finds, if the first two succeed
  have hready : ∀ {fs₁ fs₂ : Files}, w.makeFolders (folderPath root) fs = (.ok (), fs₁) →
      w.writeFile (stagedPath root) (Json.write true config.json) fs₁ = (.ok (), fs₂) →
      ((∃ fs₃, fs₂.rename (stagedPath root) (configPath root) = .ok fs₃) ↔
        fs.item? (fs.target (configPath root)) ≠ some .folder) := by
    intro fs₁ fs₂ hcreated hwritten
    have hkept := w.kept_makeFolders hstraight "config.json"
    rw [hcreated, ← fs.target_config] at hkept
    have hwrite := (Mishaps.writeFile_eq_ok_iff.mp hwritten).2
    have hkept' := Files.kept_write hwrite (fs₁.target_config_ne_staged root)
    rw [Files.target_eq (configPath root) hkept.work] at hkept'
    have hrooted₁ := hrooted.makeFolders (fs.origin (folderPath root))
      (Files.names (folderPath root))
    rw [(Mishaps.makeFolders_eq_ok_iff.mp hcreated).2] at hrooted₁
    rw [Files.exists_rename_staged_iff (hrooted₁.write_staged hwrite) (Files.look_write hwrite),
      Files.target_eq (configPath root) (hkept.trans hkept').work, (hkept.trans hkept').item]
  constructor
  · rintro rfl
    cases h with
    | saved created written replaced =>
      obtain ⟨hfolders, hmade⟩ := Mishaps.makeFolders_eq_ok_iff.mp created
      obtain ⟨hwrite, hwrote⟩ := Mishaps.writeFile_eq_ok_iff.mp written
      obtain ⟨hrename, hrenamed⟩ := Mishaps.renameFile_eq_ok_iff.mp replaced
      have hcreated := Files.createFolders_eq_ok_iff.mpr hmade
      refine ⟨?_, ⟨_, hcreated⟩, ?_, (hready created written).mp ⟨_, hrenamed⟩⟩
      · cases w
        simp_all
      · exact (hstraight.exists_write_staged_iff hcreated _).mp ⟨_, hwrote⟩
  · rintro ⟨rfl, ⟨fs₁, hcreated⟩, hstaged, hconfig⟩
    have hmade : ({} : Mishaps).makeFolders (folderPath root) fs = (.ok (), fs₁) :=
      Mishaps.makeFolders_eq_ok_iff.mpr ⟨rfl, Files.createFolders_eq_ok_iff.mp hcreated⟩
    obtain ⟨fs₂, hwrote⟩ := (hstraight.exists_write_staged_iff hcreated
      (Json.write true config.json).toUTF8).mpr hstaged
    have hwritten : ({} : Mishaps).writeFile (stagedPath root) (Json.write true config.json) fs₁ =
        (.ok (), fs₂) := Mishaps.writeFile_eq_ok_iff.mpr ⟨rfl, hwrote⟩
    obtain ⟨fs₃, hrenamed⟩ := (hready hmade hwritten).mpr hconfig
    have hreplaced : ({} : Mishaps).renameFile (stagedPath root) (configPath root) fs₂ =
        (.ok (), fs₃) := Mishaps.renameFile_eq_ok_iff.mpr ⟨rfl, hrenamed⟩
    cases h with
    | uncreated created => simp [hmade] at created
    | unwritten created written =>
      obtain ⟨-, rfl⟩ := Prod.mk.inj (hmade.symm.trans created)
      simp [hwritten] at written
    | unreplaced created written replaced =>
      obtain ⟨-, rfl⟩ := Prod.mk.inj (hmade.symm.trans created)
      obtain ⟨-, rfl⟩ := Prod.mk.inj (hwritten.symm.trans written)
      simp [hreplaced] at replaced
    | saved created written replaced => rfl

/-! ## All or nothing -/

/-- What a save leaves: the new configuration if it succeeded, what was loaded before if it failed,
    and after each operation either the old file or all of the new one. -/
structure AllOrNothing (fs : Files) (root : String) (config : Config)
    (result : Except Error Unit) (s : Session) : Prop where
  stored : result = .ok () → s.now.loaded root = .ok config
  unchanged : result ≠ .ok () → s.now.loaded root = fs.loaded root
  whole : ∀ f ∈ s.past, f.look (configPath root) = fs.look (configPath root) ∨
    f.look (configPath root) = some (.file (Json.write true config.json).toUTF8)

/-- Whichever operations fail, and however far they get: after a save that succeeds the new
    configuration is loaded. If every `..` of the root comes behind folders that are there, then a
    save is all or nothing, and succeeds unless an operation is made to fail or something is in the
    way. -/
theorem saveConfig_allOrNothing {fs : Files} {root : String} {config : Config}
    (hconfig : config.Portable) (w : Mishaps) :
    ((w.save root config fs).1 = .ok () →
      (w.save root config fs).2.now.loaded root = .ok config) ∧
    (fs.Rooted → fs.Straight root →
      AllOrNothing fs root config (w.save root config fs).1 (w.save root config fs).2 ∧
      ((w.save root config fs).1 = .ok () ↔
        w = {} ∧ (∃ fs₁, fs.createFolders (folderPath root) = .ok fs₁) ∧
          fs.item? (fs.target (stagedPath root)) ≠ some .folder ∧
          fs.item? (fs.target (configPath root)) ≠ some .folder)) := by
  have hsaving := saving_save w root config fs
  have hstored : (w.save root config fs).1 = .ok () →
      (w.save root config fs).2.now.loaded root = .ok config := by
    intro hok
    rw [Files.loaded_eq, hsaving.look_saved hok, configFrom_write hconfig]
  refine ⟨hstored, fun hrooted hstraight => ⟨?_, hsaving.eq_ok_iff hrooted hstraight⟩⟩
  obtain ⟨hold, hpast⟩ := hsaving.look_config hrooted hstraight
  refine ⟨hstored, fun hfailed => ?_, fun f hf => ?_⟩
  · rw [Files.loaded_eq, Files.loaded_eq, hold hfailed]
  · rcases hpast f hf with rfl | hsame
    · by_cases hok : (w.save root config fs).1 = .ok ()
      · exact .inr (hsaving.look_saved hok)
      · exact .inl (hold hok)
    · exact .inl hsame

/-- A project with a broken configuration, a staged file that was left over, and another folder
    beside it. -/
def cluttered : Files where
  items := [(["lib"], .folder), (["proj"], .folder), (["proj", ".codeflow"], .folder),
    (["proj", ".codeflow", "config.json"], .file "\x7b".toUTF8),
    (["proj", ".codeflow", "config.tmp"], .file "".toUTF8)]
  work := []

theorem rooted_cluttered : cluttered.Rooted := by
  apply Files.rooted_of_items
  simp only [cluttered, List.forall_mem_cons]
  exact ⟨rfl, rfl, rfl, rfl, rfl, nofun⟩

theorem straight_cluttered : cluttered.Straight "lib/../proj" := by
  rintro before ⟨after, h⟩
  have hnames : Files.names "lib/../proj" = ["lib", "..", "proj"] := by decide
  rw [hnames] at h
  rcases before with _ | ⟨x, _ | ⟨y, _ | ⟨z, before⟩⟩⟩ <;> simp at h
  obtain ⟨rfl, -⟩ := h
  simp only [List.cons_append, List.nil_append, Files.leads_cons, Files.leads_nil, and_true]
  exact ⟨rfl, rfl⟩

theorem portable_standard (root : String) : (Config.standard root).Portable :=
  ⟨by change 1 < 2 ^ 32; decide, by change 1048576 < 2 ^ 64; decide⟩

/-- In the cluttered project a save succeeds, and one whose writing stops early changes nothing. -/
theorem cluttered_allOrNothing :
    cluttered.Rooted ∧ cluttered.Straight "lib/../proj" ∧ (Config.standard "proj").Portable ∧
      ((({} : Mishaps).save "lib/../proj" (Config.standard "proj") cluttered).1 = .ok () ∧
        (({} : Mishaps).save "lib/../proj" (Config.standard "proj") cluttered).2.now.loaded
          "lib/../proj" = .ok (Config.standard "proj")) ∧
      (({ write := some (.other "no space left", some "\x7b".toUTF8) } : Mishaps).save
          "lib/../proj" (Config.standard "proj") cluttered).2.now.loaded "lib/../proj" =
        cluttered.loaded "lib/../proj" :=
  have h := fun w => (saveConfig_allOrNothing (portable_standard "proj") w).2 rooted_cluttered
    straight_cluttered
  have hok := (h {}).2.mpr ⟨rfl, ⟨cluttered, rfl⟩, nofun, nofun⟩
  ⟨rooted_cluttered, straight_cluttered, portable_standard "proj", ⟨hok, (h {}).1.stored hok⟩,
    (h { write := some (.other "no space left", some "\x7b".toUTF8) }).1.unchanged nofun⟩

/-- A project with a configuration, and a folder where the staged file should go. -/
def blocked : Files where
  items := [(["proj"], .folder), (["proj", ".codeflow"], .folder),
    (["proj", ".codeflow", "config.json"],
      .file (Json.write true (Config.standard "proj").json).toUTF8),
    (["proj", ".codeflow", "config.tmp"], .folder)]
  work := []

theorem rooted_blocked : blocked.Rooted := by
  apply Files.rooted_of_items
  simp only [blocked, List.forall_mem_cons]
  exact ⟨rfl, rfl, rfl, rfl, nofun⟩

/-- Behind a folder that is missing, the `..` of a root leads nowhere, and no configuration is
    found. A save makes the folder before it fails, and from then on the old one is found. -/
theorem failedSave_reveals :
    blocked.Rooted ∧ (Config.standard "new").Portable ∧
      (({} : Mishaps).save "nope/../proj" (Config.standard "new") blocked).1 =
        .error (.config .write "nope/../proj/.codeflow/config.tmp" Fault.isFolder.message) ∧
      blocked.loaded "nope/../proj" = .ok (Config.standard "nope/../proj") ∧
      (({} : Mishaps).save "nope/../proj" (Config.standard "new") blocked).2.now.loaded
          "nope/../proj" = .ok (Config.standard "proj") ∧
      ¬ AllOrNothing blocked "nope/../proj" (Config.standard "new")
        (({} : Mishaps).save "nope/../proj" (Config.standard "new") blocked).1
        (({} : Mishaps).save "nope/../proj" (Config.standard "new") blocked).2 := by
  have hresult : (({} : Mishaps).save "nope/../proj" (Config.standard "new") blocked).1 =
      .error (.config .write "nope/../proj/.codeflow/config.tmp" Fault.isFolder.message) := rfl
  have hbefore : blocked.loaded "nope/../proj" = .ok (Config.standard "nope/../proj") := by
    have hlook : blocked.look (configPath "nope/../proj") = none := rfl
    rw [Files.loaded_eq, hlook]
    rfl
  have hafter : (({} : Mishaps).save "nope/../proj" (Config.standard "new") blocked).2.now.loaded
      "nope/../proj" = .ok (Config.standard "proj") := by
    have hlook : (({} : Mishaps).save "nope/../proj" (Config.standard "new") blocked).2.now.look
        (configPath "nope/../proj") =
          some (.file (Json.write true (Config.standard "proj").json).toUTF8) := rfl
    rw [Files.loaded_eq, hlook, configFrom_write (portable_standard "proj")]
  refine ⟨rooted_blocked, portable_standard "new", hresult, hbefore, hafter, fun h => ?_⟩
  have hsame := h.unchanged (by rw [hresult]; nofun)
  rw [hbefore, hafter] at hsame
  exact absurd (Except.ok.inj hsame) (by decide)

end Stepflow.Project
