import Mathlib
import Stepflow.Project.Config

/-!
# Which paths are looked at

The patterns of a configuration for which none was saved are of four forms: a folder with all that
is in it, at the front of a path or anywhere in it, and a text at the end of a path or anywhere in
it. Each form is a test on the characters of the path.

* `Glob.Plain`: a text that stands for itself in a pattern.
* `Glob.Reads`: what the rest of a pattern is read as.

Results:
* `Glob.Reads.plain`, `Glob.Reads.sequence`, `Glob.Reads.components`: how the pieces are read.
* `Glob.fits_plain`, `Glob.fits_sequence_iff`, `Glob.fits_components_iff`: what they stand for.
* `Glob.isMatch_ending`, `Glob.isMatch_part`, `Glob.isMatch_folder`, `Glob.isMatch_folderBelow`: the
  four forms.
* `Project.Config.standard_admits_iff`: the paths that are looked at.
-/

namespace Stepflow

namespace Glob

/-! ## Reading -/

/-- No character of the text has a meaning of its own in a pattern. -/
def Plain (cs : List Char) : Prop :=
  ∀ c ∈ cs, c ≠ '?' ∧ c ≠ '[' ∧ c ≠ '*'

instance (cs : List Char) : Decidable (Plain cs) :=
  decidable_of_iff (cs.all fun c => c ≠ '?' ∧ c ≠ '[' ∧ c ≠ '*') (by simp [Plain])

theorem Plain.head?_ne {cs : List Char} (h : Plain cs) : cs.head? ≠ some '*' := by
  intro hhead
  exact (h '*' (List.mem_of_mem_head? hhead)).2.2 rfl

theorem Plain.folder {cs : List Char} (h : Plain cs) : Plain (cs ++ [separator]) := by
  intro c hc
  rcases List.mem_append.mp hc with hc | hc
  · exact h c hc
  · rw [List.mem_singleton.mp hc]
    decide

/-- The rest of a pattern behind the character `last` is read as the pieces, with any bound that is
    not less than its length. -/
def Reads (last : Option Char) (cs : List Char) (ps : List Piece) : Prop :=
  ∀ fuel, cs.length ≤ fuel → pieces? fuel last cs = some ps

section Reading

variable {last : Option Char} {cs rest : List Char} {ps : List Piece}

theorem Reads.nil (last : Option Char) : Reads last [] [] := by
  intro fuel _
  unfold pieces?
  rfl

/-- One turn of the reader. -/
theorem Reads.cons {c : Char}
    (h : ∀ fuel, cs.length ≤ fuel → pieces? (fuel + 1) last (c :: cs) = some ps) :
    Reads last (c :: cs) ps := by
  intro fuel hfuel
  rw [List.length_cons] at hfuel
  obtain ⟨fuel, rfl⟩ : ∃ n, fuel = n + 1 := ⟨fuel - 1, by omega⟩
  exact h fuel (by omega)

/-- A text that stands for itself. -/
theorem Reads.plain (hcs : Plain cs) (h : Reads (cs.getLast?.or last) rest ps) :
    Reads last (cs ++ rest) (cs.map .char ++ ps) := by
  induction cs generalizing last with
  | nil => simpa using h
  | cons c cs ih =>
    have hc := hcs c List.mem_cons_self
    have hrest : Reads (some c) (cs ++ rest) (cs.map .char ++ ps) := by
      apply ih fun d hd => hcs d (List.mem_cons_of_mem c hd)
      convert h using 1
      cases cs <;> simp [List.getLast?_cons]
    rw [List.cons_append]
    refine .cons fun fuel hfuel => ?_
    rw [pieces?, if_neg hc.1, if_neg hc.2.1, if_neg hc.2.2, hrest fuel hfuel]
    rfl

theorem takeWhile_star (hcs : cs.head? ≠ some '*') : cs.takeWhile (· == '*') = [] := by
  cases cs with
  | nil => rfl
  | cons c cs => simpa using hcs

/-- A star that is alone. -/
theorem Reads.sequence (hcs : cs.head? ≠ some '*') (h : Reads (some '*') cs ps) :
    Reads last ('*' :: cs) (.sequence :: ps) := by
  have halone : ('*' :: cs).takeWhile (· == '*') = ['*'] := by
    simp [takeWhile_star hcs]
  refine .cons fun fuel hfuel => ?_
  rw [pieces?, if_neg (by decide), if_neg (by decide), if_pos rfl, halone]
  dsimp only
  rw [h fuel hfuel]
  rfl

/-- Two stars must be a whole component. -/
theorem pieces?_stars (fuel : Nat) (last : Option Char) (hcs : cs.head? ≠ some '*') :
    pieces? (fuel + 1) last ('*' :: '*' :: cs) =
      (componentEnd? last cs).bind fun rest =>
        (pieces? fuel (some separator) rest).map (.components :: ·) := by
  have htwo : ('*' :: '*' :: cs).takeWhile (· == '*') = ['*', '*'] := by
    simp [takeWhile_star hcs]
  rw [pieces?, if_neg (by decide), if_neg (by decide), if_pos rfl, htwo]
  rfl

theorem Reads.components (hlast : last.all (· == separator) = true)
    (h : Reads (some separator) cs ps) :
    Reads last ('*' :: '*' :: separator :: cs) (.components :: ps) := by
  refine .cons fun fuel hfuel => ?_
  have hend : componentEnd? last (separator :: cs) = some cs := by
    simp [componentEnd?, hlast]
  rw [List.length_cons, List.length_cons] at hfuel
  rw [pieces?_stars fuel last (by simp [separator]), hend, Option.bind_some, h fuel (by omega)]
  rfl

theorem Reads.components_end (hlast : last.all (· == separator) = true) :
    Reads last ['*', '*'] [.components] := by
  refine .cons fun fuel hfuel => ?_
  have hend : componentEnd? last [] = some [] := by
    simp [componentEnd?, hlast]
  rw [pieces?_stars fuel last (by decide), hend, Option.bind_some, Reads.nil _ fuel (by simp)]
  rfl

end Reading

theorem isMatch_iff {pattern path : String} {ps : List Piece} (h : Reads none pattern.toList ps) :
    isMatch pattern path = true ↔ fits ps path.toList = true := by
  rw [isMatch, parse?, h _ String.length_toList.le, Option.any_some]

/-! ## Matching -/

section Matching

variable {p : List Char → Bool} {cs path : List Char} {ps : List Piece}

theorem someRest_iff :
    someRest p path = true ↔ ∃ front rest, path = front ++ rest ∧ p rest = true := by
  induction path with
  | nil => simp [someRest]
  | cons c path ih =>
    rw [someRest, Bool.or_eq_true, ih]
    constructor
    · rintro (h | ⟨front, rest, rfl, h⟩)
      · exact ⟨[], c :: path, rfl, h⟩
      · exact ⟨c :: front, rest, rfl, h⟩
    · rintro ⟨front, rest, heq, h⟩
      cases front with
      | nil => exact .inl (heq ▸ h)
      | cons d front => exact .inr ⟨front, rest, (List.cons.inj heq).2, h⟩

theorem someComponent_iff :
    someComponent p path = true ↔
      ∃ front rest, path = front ++ separator :: rest ∧ p rest = true := by
  induction path with
  | nil => simp [someComponent]
  | cons c path ih =>
    rw [someComponent, Bool.or_eq_true, Bool.and_eq_true, beq_iff_eq, ih]
    constructor
    · rintro (⟨rfl, h⟩ | ⟨front, rest, rfl, h⟩)
      · exact ⟨[], path, rfl, h⟩
      · exact ⟨c :: front, rest, rfl, h⟩
    · rintro ⟨front, rest, heq, h⟩
      cases front with
      | nil =>
        obtain ⟨rfl, rfl⟩ := List.cons.inj heq
        exact .inl ⟨rfl, h⟩
      | cons d front => exact .inr ⟨front, rest, (List.cons.inj heq).2, h⟩

theorem fits_plain :
    fits (cs.map .char ++ ps) path = true ↔ ∃ rest, path = cs ++ rest ∧ fits ps rest = true := by
  induction cs generalizing path with
  | nil => simp
  | cons c cs ih =>
    rw [List.map_cons, List.cons_append, fits]
    cases path with
    | nil => simp [oneThen]
    | cons d path =>
      rw [oneThen, Bool.and_eq_true, beq_iff_eq, ih]
      constructor
      · rintro ⟨rfl, rest, rfl, h⟩
        exact ⟨rest, rfl, h⟩
      · rintro ⟨rest, heq, h⟩
        obtain ⟨rfl, rfl⟩ := List.cons.inj heq
        exact ⟨rfl, rest, rfl, h⟩

theorem fits_sequence_iff :
    fits (.sequence :: ps) path = true ↔
      ∃ front rest, path = front ++ rest ∧ fits ps rest = true := by
  rw [fits, someRest_iff]

theorem fits_components_iff (hps : ps ≠ []) :
    fits (.components :: ps) path = true ↔
      fits ps path = true ∨
        ∃ front rest, path = front ++ separator :: rest ∧ fits ps rest = true := by
  obtain ⟨p, ps, rfl⟩ := List.exists_cons_of_ne_nil hps
  rw [fits, Bool.or_eq_true, someComponent_iff]

/-- Components in front of any number of characters add nothing. -/
theorem fits_components_sequence :
    fits (.components :: .sequence :: ps) path = true ↔
      ∃ front rest, path = front ++ rest ∧ fits ps rest = true := by
  rw [fits_components_iff (List.cons_ne_nil _ _), fits_sequence_iff]
  constructor
  · rintro (h | ⟨front, path, rfl, h⟩)
    · exact h
    · obtain ⟨middle, rest, rfl, hrest⟩ := fits_sequence_iff.mp h
      exact ⟨front ++ separator :: middle, rest, by simp, hrest⟩
  · exact .inl

end Matching

/-! ## The four forms -/

section Forms

variable {name : String}

/-- A text at the end of a path. -/
theorem isMatch_ending (hname : Plain name.toList) (path : String) :
    isMatch ("**/*" ++ name) path = true ↔ name.toList <:+ path.toList := by
  have hread : Reads none ("**/*" ++ name).toList
      (.components :: .sequence :: (name.toList.map .char ++ [])) := by
    have hplain : Reads (some '*') (name.toList ++ []) (name.toList.map .char ++ []) :=
      .plain hname (.nil _)
    rw [List.append_nil name.toList] at hplain
    rw [String.toList_append]
    exact .components rfl (.sequence hname.head?_ne hplain)
  rw [isMatch_iff hread, fits_components_sequence]
  constructor
  · rintro ⟨front, rest, hpath, hrest⟩
    obtain ⟨behind, rfl, hbehind⟩ := fits_plain.mp hrest
    rw [fits, List.isEmpty_iff] at hbehind
    exact ⟨front, by rw [hpath, hbehind, List.append_nil]⟩
  · rintro ⟨front, hpath⟩
    exact ⟨front, name.toList, hpath.symm, fits_plain.mpr ⟨[], by simp, rfl⟩⟩

/-- A text anywhere in a path. -/
theorem isMatch_part (hname : Plain name.toList) (hne : name.toList ≠ []) (path : String) :
    isMatch ("**/*" ++ name ++ "*") path = true ↔ name.toList <:+: path.toList := by
  have hread : Reads none ("**/*" ++ name ++ "*").toList
      (.components :: .sequence :: (name.toList.map .char ++ [.sequence])) := by
    rw [String.toList_append, String.toList_append]
    have hhead : (name.toList ++ ['*']).head? ≠ some '*' := by
      rw [List.head?_append_of_ne_nil _ hne]
      exact hname.head?_ne
    exact .components rfl (.sequence hhead (.plain hname (.sequence (by decide) (.nil _))))
  have hall : ∀ rest, fits [.sequence] rest = true := fun rest =>
    fits_sequence_iff.mpr ⟨rest, [], by simp, rfl⟩
  rw [isMatch_iff hread, fits_components_sequence]
  constructor
  · rintro ⟨front, rest, hpath, hrest⟩
    obtain ⟨behind, rfl, -⟩ := fits_plain.mp hrest
    exact ⟨front, behind, by rw [hpath, List.append_assoc]⟩
  · rintro ⟨front, behind, hpath⟩
    exact ⟨front, name.toList ++ behind, by rw [← hpath, List.append_assoc],
      fits_plain.mpr ⟨behind, rfl, hall behind⟩⟩

theorem reads_folder (hname : Plain name.toList) (last : Option Char) :
    Reads last (name ++ "/**").toList
      ((name.toList ++ [separator]).map .char ++ [.components]) := by
  have htext : (name ++ "/**").toList = name.toList ++ [separator] ++ ['*', '*'] := by
    rw [String.toList_append, List.append_assoc]
    rfl
  rw [htext]
  refine .plain hname.folder (.components_end ?_)
  rw [List.getLast?_concat]
  rfl

theorem fits_folder {path : List Char} :
    fits ((name.toList ++ [separator]).map .char ++ [.components]) path = true ↔
      (name ++ "/").toList <+: path := by
  rw [fits_plain, String.toList_append]
  constructor
  · rintro ⟨rest, rfl, -⟩
    exact ⟨rest, rfl⟩
  · rintro ⟨rest, rfl⟩
    exact ⟨rest, rfl, by rw [fits]⟩

/-- A folder at the front of a path. -/
theorem isMatch_folder (hname : Plain name.toList) (path : String) :
    isMatch (name ++ "/**") path = true ↔ (name ++ "/").toList <+: path.toList := by
  rw [isMatch_iff (reads_folder hname none), fits_folder]

/-- A folder at the front of a path or behind any separator. -/
theorem isMatch_folderBelow (hname : Plain name.toList) (path : String) :
    isMatch ("**/" ++ (name ++ "/**")) path = true ↔
      (name ++ "/").toList <+: path.toList ∨ ("/" ++ (name ++ "/")).toList <:+: path.toList := by
  have hread : Reads none ("**/" ++ (name ++ "/**")).toList
      (.components :: ((name.toList ++ [separator]).map .char ++ [.components])) := by
    rw [String.toList_append]
    exact .components rfl (reads_folder hname _)
  rw [isMatch_iff hread, fits_components_iff (by simp), fits_folder]
  refine or_congr_right ?_
  constructor
  · rintro ⟨front, rest, hpath, hrest⟩
    obtain ⟨behind, rfl⟩ := fits_folder.mp hrest
    refine ⟨front, behind, ?_⟩
    rw [hpath, String.toList_append, List.append_assoc]
    rfl
  · rintro ⟨front, behind, hpath⟩
    refine ⟨front, (name ++ "/").toList ++ behind, ?_, fits_folder.mpr ⟨behind, rfl⟩⟩
    rw [← hpath, String.toList_append, List.append_assoc]
    rfl

end Forms

end Glob

namespace Project.Config

/-- The endings of the files that are looked at. -/
def endings : List String :=
  [".ts", ".tsx", ".mts", ".cts"]

/-- The folders at the front of a path that are passed over. -/
def passedOver : List String :=
  ["node_modules", "dist", "build", "target", ".git", ".codeflow"]

theorem any_includes_iff (rootDir path : String) :
    (standard rootDir).includes.any (Glob.isMatch · path) = true ↔
      ∃ ending ∈ endings, ending.toList <:+ path.toList := by
  have hplain : ∀ ending ∈ endings, Glob.Plain ending.toList := by decide
  have hincludes : (standard rootDir).includes = endings.map ("**/*" ++ ·) := rfl
  rw [hincludes, List.any_map, List.any_eq_true]
  exact exists_congr fun ending => and_congr_right fun h =>
    Glob.isMatch_ending (hplain ending h) path

theorem any_excludes_iff (rootDir path : String) :
    (standard rootDir).excludes.any (Glob.isMatch · path) = true ↔
      (∃ name ∈ passedOver, (name ++ "/").toList <+: path.toList) ∨
        "/node_modules/".toList <:+: path.toList ∨ ".d.ts".toList <:+ path.toList ∨
        ".min.".toList <:+: path.toList := by
  have hplain : ∀ name ∈ passedOver, Glob.Plain name.toList := by decide
  have hexcludes : (standard "").excludes.Perm (passedOver.map (· ++ "/**") ++
      ["**/" ++ ("node_modules" ++ "/**"), "**/*" ++ ".d.ts", "**/*" ++ ".min." ++ "*"]) := by
    decide
  have hfolder : (passedOver.map (· ++ "/**")).any (Glob.isMatch · path) = true ↔
      ∃ name ∈ passedOver, (name ++ "/").toList <+: path.toList := by
    rw [List.any_map, List.any_eq_true]
    exact exists_congr fun name => and_congr_right fun h => Glob.isMatch_folder (hplain name h) path
  have hbelow := Glob.isMatch_folderBelow (hplain "node_modules" (by decide)) path
  have hending := Glob.isMatch_ending (by decide : Glob.Plain ".d.ts".toList) path
  have hpart := Glob.isMatch_part (by decide : Glob.Plain ".min.".toList) (by decide) path
  -- The folder at the front of the path is passed over already.
  have hfront : ("node_modules" ++ "/").toList <+: path.toList →
      ∃ name ∈ passedOver, (name ++ "/").toList <+: path.toList :=
    fun h => ⟨"node_modules", by decide, h⟩
  change (standard "").excludes.any (Glob.isMatch · path) = true ↔ _
  rw [hexcludes.any_eq, List.any_append, Bool.or_eq_true, hfolder, List.any_cons, List.any_cons,
    List.any_cons, List.any_nil, Bool.or_false, Bool.or_eq_true, Bool.or_eq_true, hbelow, hending,
    hpart, or_assoc, ← or_assoc, or_iff_left_of_imp hfront]
  rfl

/-- Without a saved configuration, the paths that are looked at are those with one of four endings
    that do not begin with one of six folders, are not in `node_modules` at any depth, do not end
    with `.d.ts` and have no `.min.` in them. -/
theorem standard_admits_iff (rootDir path : String) :
    (standard rootDir).admits path = true ↔
      (∃ ending ∈ [".ts", ".tsx", ".mts", ".cts"], ending.toList <:+ path.toList) ∧
        (∀ name ∈ ["node_modules", "dist", "build", "target", ".git", ".codeflow"],
          ¬ (name ++ "/").toList <+: path.toList) ∧
        ¬ "/node_modules/".toList <:+: path.toList ∧ ¬ ".d.ts".toList <:+ path.toList ∧
        ¬ ".min.".toList <:+: path.toList := by
  rw [admits, Bool.and_eq_true, Bool.not_eq_true', ← Bool.not_eq_true, any_includes_iff,
    any_excludes_iff, and_comm, not_or, not_or, not_or]
  refine and_congr_right fun _ => and_congr_left fun _ => ?_
  simp only [not_exists, not_and]
  rfl

-- Folders other than `node_modules` are passed over only at the front of a path.
example : ["src/dist/view.tsx", "node_modules.ts", "a//b.ts"].all (standard "").admits = true ∧
    ["dist/view.tsx", "a/node_modules/b.ts", ".min.ts"].any (standard "").admits = false := by
  decide

end Project.Config

end Stepflow
