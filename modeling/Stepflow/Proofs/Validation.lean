import Stepflow.Proofs.Boundary
import Stepflow.Proofs.Nesting
import Stepflow.Source.Extract

/-!
# Invalid nodes are found

The validation of an arena starts at its first place. If every node lies inside the node that holds
it, then that is the place of the topmost node, and the walk from there misses nothing.

* `Arena.firstInvalid?`: the first of some places at which an arena has an invalid node.

Results:
* `Source.dispatch_faultVisitor`, `Source.walk_faultVisitor`: what one visit and what a whole walk
  remembers.
* `Source.firstFault?_eq`, `Source.isSome_firstInvalid?_iff`: what the validation finds, and that it
  finds something if the tree has it.
* `Source.validate_eq_ok_iff`: a tree is valid if no node is invalid.
* `Source.extract_eq_error_iff`, `Source.extract_eq_ok_iff`: when extraction fails on a tree, and
  when it succeeds.
* `Source.extract_fault_iff`: a source is refused if and only if its tree has an invalid node, and
  the error says where the first one starts.
* `Source.lastLine_wraps`: the count of lines starts again behind those that 32 bits can number.
-/

namespace Stepflow

/-! ## The walk -/

/-- The first of some places at which an arena has an invalid node. -/
def Arena.firstInvalid? (a : Arena) (ids : List Nat) : Option Nat :=
  ids.find? fun id => a.kind? id == some .invalid

theorem Arena.firstInvalid?_append (a : Arena) (ids ids' : List Nat) :
    a.firstInvalid? (ids ++ ids') = (a.firstInvalid? ids).or (a.firstInvalid? ids') :=
  List.find?_append

theorem Arena.firstInvalid?_singleton (a : Arena) (id : Nat) :
    a.firstInvalid? [id] = if a.kind? id == some .invalid then some id else none :=
  List.find?_singleton

namespace Source

open Text Outline

theorem fallback_faultVisitor (a : Arena) (id : Nat) (s : Option Nat) :
    ((faultVisitor a).fallback id).run s =
      (some (s.or (a.firstInvalid? [id])).isNone, s.or (a.firstInvalid? [id])) := by
  cases s with
  | some _ => rfl
  | none =>
    rw [Arena.firstInvalid?_singleton]
    change StateT.run (if a.kind? id == some .invalid then
      (do set (some id); return some (← get).isNone : StateM (Option Nat) (Option Bool))
      else (do return some (← get).isNone)) none = _
    split <;> rfl

theorem handler_faultVisitor (a : Arena) (kind : Kind) :
    (faultVisitor a).handler kind = Handler.absent := by
  cases kind <;> rfl

/-- A visit keeps what is remembered, and otherwise remembers an invalid node. The walk goes down as
    long as nothing is remembered. -/
theorem dispatch_faultVisitor (a : Arena) (kind : Kind) (id : Nat) (s : Option Nat) :
    ((faultVisitor a).dispatch kind id).run s =
      ((s.or (a.firstInvalid? [id])).isNone, s.or (a.firstInvalid? [id])) := by
  rw [Visitor.dispatch, handler_faultVisitor, Handler.absent, pure_bind]
  dsimp only
  rw [StateT.run_bind, fallback_faultVisitor]
  rfl

theorem walkAll_faultVisitor {a : Arena} {os : List Outline}
    (h : ∀ o ∈ os, ∀ s, ((o.walk (faultVisitor a)).run s).2 = s.or (a.firstInvalid? o.places))
    (s : Option Nat) :
    ((walkAll (faultVisitor a) os).run s).2 = s.or (a.firstInvalid? (placesAll os)) := by
  induction os generalizing s with
  | nil =>
    rw [walkAll_nil, placesAll]
    exact Option.or_none.symm
  | cons o os ih =>
    rw [walkAll_cons, ih fun o ho => h o (List.mem_cons_of_mem _ ho), h o List.mem_cons_self,
      placesAll, Arena.firstInvalid?_append, Option.or_assoc]

/-- A walk keeps what is remembered, and otherwise remembers the first invalid node. -/
theorem walk_faultVisitor {a : Arena} {o : Outline} (h : a.Outlines o) (s : Option Nat) :
    ((o.walk (faultVisitor a)).run s).2 = s.or (a.firstInvalid? o.places) := by
  induction h generalizing s with
  | @intro id n parts _ _ _ ih =>
    have hplaces : places ⟨id, n, parts⟩ = [id] ++ placesAll parts := by rw [places]; rfl
    rw [walk_run, dispatch_faultVisitor, hplaces, Arena.firstInvalid?_append, ← Option.or_assoc]
    cases s.or (a.firstInvalid? [id]) with
    | some _ => rfl
    | none => exact walkAll_faultVisitor ih none

theorem firstFault?_eq {a : Arena} {o : Outline} (h : a.Outlines o)
    (hroot : a.root? = some o.place) (hsize : o.places.length ≤ a.size) :
    firstFault? a = a.firstInvalid? o.places := by
  rw [firstFault?, hroot]
  exact (Arena.walk_eq_outline_walk h hsize none).trans (walk_faultVisitor h none)

/-! ## Refusal -/

variable {t : Tree} {text : List Char}

/-- Among all places there is an invalid node if and only if there is one in the tree. -/
theorem isSome_firstInvalid?_iff {ids : List Nat}
    (h : ids.Perm (List.range (Arena.ofTree t text).size)) :
    ((Arena.ofTree t text).firstInvalid? ids).isSome ↔
      ∃ p : t.NodeAddress, p.node.kind = .invalid := by
  rw [Arena.firstInvalid?, List.find?_isSome]
  constructor
  · rintro ⟨id, -, hid⟩
    obtain ⟨m, hm, hkind⟩ := Option.map_eq_some_iff.mp (eq_of_beq hid)
    obtain ⟨p, -, hd⟩ := Arena.exists_depicts hm
    exact ⟨p, hd.kind ▸ hkind⟩
  · rintro ⟨p, hp⟩
    obtain ⟨m, hm, hd⟩ := Tree.exists_node text p.node?_eq
    refine ⟨t.place p.1, h.mem_iff.mpr (List.mem_range.mpr (Tree.place_lt text p.node?_eq)), ?_⟩
    rw [Arena.kind?, hm, Option.map_some, hd.kind, hp]
    rfl

theorem exists_node_of_firstInvalid? {a : Arena} {ids : List Nat} {id : Nat}
    (h : a.firstInvalid? ids = some id) : ∃ n, a.node? id = some n := by
  rw [Arena.firstInvalid?] at h
  have hkind := List.find?_some h
  obtain ⟨n, hn, -⟩ := Option.map_eq_some_iff.mp (eq_of_beq hkind)
  exact ⟨n, hn⟩

theorem validate_eq_error_iff {a : Arena} {byte : Nat} {line : UInt32} :
    validate a text = .error (.fault byte line) ↔
      ∃ id n, firstFault? a = some id ∧ a.node? id = some n ∧ byte = n.span.start ∧
        line = lineAt text byte := by
  rw [validate]
  constructor
  · intro h
    split at h
    · next n hn =>
      obtain ⟨id, hid, hn⟩ := Option.bind_eq_some_iff.mp hn
      cases h
      exact ⟨id, n, hid, hn, rfl, rfl⟩
    · cases h
  · rintro ⟨id, n, hid, hn, rfl, rfl⟩
    rw [hid, Option.bind_some, hn]

/-- What is read is valid if and only if no node is invalid. -/
theorem validate_eq_ok_iff (text : List Char) (hn : t.Nested) :
    validate (Arena.ofTree t text) text = .ok () ↔
      ∀ p : t.NodeAddress, p.node.kind ≠ .invalid := by
  obtain ⟨o, ho, hroot, hperm⟩ := Arena.exists_outline_root hn text
  have hsize : o.places.length ≤ (Arena.ofTree t text).size := by
    rw [hperm.length_eq, List.length_range]
  rw [validate, firstFault?_eq ho hroot hsize, ← not_exists, ← isSome_firstInvalid?_iff hperm]
  cases hfirst : (Arena.ofTree t text).firstInvalid? o.places with
  | none => simp
  | some id =>
    obtain ⟨n, hnode⟩ := exists_node_of_firstInvalid? hfirst
    simp [hnode]

theorem extract_eq_error_iff {reader : Reader} {source : String}
    (hread : reader .standard (String.ofList (unifyLineEnds source.toList)) = .ok t) {e : Error} :
    extract reader source = .error e ↔
      validate (Arena.ofTree t (unifyLineEnds source.toList)) (unifyLineEnds source.toList) =
        .error e := by
  rw [extract]
  dsimp only
  rw [hread]
  change (validate _ _ >>= fun _ => _) = _ ↔ _
  cases validate (Arena.ofTree t (unifyLineEnds source.toList)) (unifyLineEnds source.toList) with
  | error e' =>
    change (.error e' : Except Error Extract) = .error e ↔ _
    rw [Except.error.injEq, Except.error.injEq]
  | ok _ => exact ⟨nofun, nofun⟩

/-- Extraction succeeds if and only if the reader does and its tree is valid. -/
theorem extract_eq_ok_iff {reader : Reader} {source : String} {e : Extract} :
    extract reader source = .ok e ↔
      ∃ t, reader .standard (String.ofList (unifyLineEnds source.toList)) = .ok t ∧
        validate (Arena.ofTree t (unifyLineEnds source.toList)) (unifyLineEnds source.toList) =
          .ok () ∧
        e = { charts := Flow.charts (Arena.ofTree t (unifyLineEnds source.toList))
                (unifyLineEnds source.toList)
              text := String.ofList (unifyLineEnds source.toList) } := by
  unfold extract
  dsimp only
  cases reader .standard (String.ofList (unifyLineEnds source.toList)) with
  | error e' => exact ⟨nofun, nofun⟩
  | ok t =>
    change (validate _ _ >>= fun _ => _) = _ ↔ _
    cases hvalid : validate (Arena.ofTree t (unifyLineEnds source.toList))
        (unifyLineEnds source.toList) with
    | error e' =>
      refine ⟨nofun, ?_⟩
      rintro ⟨t', ht, hvalid', -⟩
      cases ht
      cases hvalid.symm.trans hvalid'
    | ok u =>
      constructor
      · intro h
        cases h
        exact ⟨t, rfl, hvalid, rfl⟩
      · rintro ⟨t', ht, -, rfl⟩
        cases ht
        rfl

/-- A line is counted in 32 bits, which is exact for the first `UInt32.size - 1` lines. -/
theorem lineAt_eq (before after : List Char) :
    lineAt (before ++ after) (byteLength before) = (before.count '\n').toUInt32 + 1 := by
  rw [lineAt, takeBytes?_append]

theorem toNat_line {n : Nat} (h : n + 1 < UInt32.size) : (n.toUInt32 + 1).toNat = 1 + n := by
  have hn : n.toUInt32.toNat = n := UInt32.toNat_ofNat_of_lt (Nat.lt_of_succ_lt h)
  have hone : (1 : UInt32).toNat = 1 := rfl
  rw [UInt32.toNat_add, hn, hone, Nat.mod_eq_of_lt h, Nat.add_comm]

/-- The walk from the first place goes through all places, and an error tells the first invalid node
    that it meets. -/
theorem exists_walk_to_fault {reader : Reader} {source : String}
    (hread : reader .standard (String.ofList (unifyLineEnds source.toList)) = .ok t)
    (hn : t.Nested) :
    ∃ o, (Arena.ofTree t (unifyLineEnds source.toList)).Outlines o ∧
      (Arena.ofTree t (unifyLineEnds source.toList)).root? = some o.place ∧
      o.places.Perm (List.range (Arena.ofTree t (unifyLineEnds source.toList)).size) ∧
      ∀ byte line, extract reader source = .error (.fault byte line) ↔
        ∃ id n, (Arena.ofTree t (unifyLineEnds source.toList)).firstInvalid? o.places = some id ∧
          (Arena.ofTree t (unifyLineEnds source.toList)).node? id = some n ∧
          byte = n.span.start ∧ line = lineAt (unifyLineEnds source.toList) byte := by
  obtain ⟨o, ho, hroot, hperm⟩ :=
    Arena.exists_outline_root hn (unifyLineEnds source.toList)
  have hsize : o.places.length ≤ (Arena.ofTree t (unifyLineEnds source.toList)).size := by
    rw [hperm.length_eq, List.length_range]
  refine ⟨o, ho, hroot, hperm, fun byte line => ?_⟩
  rw [extract_eq_error_iff hread, validate_eq_error_iff, firstFault?_eq ho hroot hsize]

/-- Let a reader make a tree of a source in which every node lies inside the node that holds it. The
    source is refused if and only if the tree has an invalid node. The error then tells the byte at
    which the first invalid node starts, in the order of a walk from the first place, and its line,
    if the byte lies between two characters. The line is counted in 32 bits: it is 1 more than the
    number of line breaks in front of the byte as long as 32 bits hold that number. -/
theorem extract_fault_iff (reader : Reader) (source : String) (t : Tree)
    (hread : reader .standard (String.ofList (unifyLineEnds source.toList)) = .ok t)
    (hn : t.Nested) :
    ((∃ byte line, extract reader source = .error (.fault byte line)) ↔
      ∃ p : t.NodeAddress, p.node.kind = .invalid) ∧
    ∀ byte line, extract reader source = .error (.fault byte line) →
      (∃ o id n, (Arena.ofTree t (unifyLineEnds source.toList)).Outlines o ∧
        (Arena.ofTree t (unifyLineEnds source.toList)).root? = some o.place ∧
        (Arena.ofTree t (unifyLineEnds source.toList)).firstInvalid? o.places = some id ∧
        (Arena.ofTree t (unifyLineEnds source.toList)).node? id = some n ∧
        byte = n.span.start) ∧
      ∀ before after, unifyLineEnds source.toList = before ++ after → byteLength before = byte →
        line = (before.count '\n').toUInt32 + 1 ∧
        (before.count '\n' + 1 < UInt32.size → line.toNat = 1 + before.count '\n') := by
  obtain ⟨o, ho, hroot, hperm, hrefuse⟩ := exists_walk_to_fault hread hn
  constructor
  · rw [← isSome_firstInvalid?_iff hperm, Option.isSome_iff_exists]
    constructor
    · rintro ⟨byte, line, h⟩
      obtain ⟨id, -, hid, -⟩ := (hrefuse byte line).mp h
      exact ⟨id, hid⟩
    · rintro ⟨id, hid⟩
      obtain ⟨n, hnode⟩ := exists_node_of_firstInvalid? hid
      exact ⟨_, _, (hrefuse _ _).mpr ⟨id, n, hid, hnode, rfl, rfl⟩⟩
  · intro byte line h
    obtain ⟨id, n, hid, hnode, hbyte, hline⟩ := (hrefuse byte line).mp h
    refine ⟨⟨o, id, n, ho, hroot, hid, hnode, hbyte⟩, ?_⟩
    rintro before after htext rfl
    rw [htext, lineAt_eq] at hline
    exact ⟨hline, fun hcount => hline ▸ toNat_line hcount⟩

/-- The tree of two lines of which the second one is not understood. The invalid node stands in a
    list inside a group. -/
def brokenLine : Tree where
  kind := .module
  span := { start := 1, stop := 5 }
  fields := [(.body, .list [.leaf .expressionStatement { start := 1, stop := 2 },
    .group [(.children, .list [.leaf .invalid { start := 3, stop := 5 }])]])]

theorem brokenLine_refused :
    brokenLine.Nested ∧ ∃ byte line,
      extract (fun _ _ => .ok brokenLine) "a\r\n%%" = .error (.fault byte line) ∧
      ∀ before after, unifyLineEnds "a\r\n%%".toList = before ++ after →
        byteLength before = byte →
        line = (before.count '\n').toUInt32 + 1 ∧
        (before.count '\n' + 1 < UInt32.size → line.toNat = 1 + before.count '\n') := by
  have hn : brokenLine.Nested := by decide
  have hinvalid : ∃ p : brokenLine.NodeAddress, p.node.kind = .invalid :=
    ⟨⟨[0, 1, 0, 0], by decide⟩, by decide⟩
  obtain ⟨hrefused, hwhere⟩ :=
    extract_fault_iff (fun _ _ => .ok brokenLine) "a\r\n%%" brokenLine rfl hn
  obtain ⟨byte, line, h⟩ := hrefused.mpr hinvalid
  exact ⟨hn, byte, line, h, (hwhere byte line h).2⟩

/-! ## Lines beyond 32 bits -/

/-- Lines of one letter each. -/
def letterLines (n : Nat) : List Char :=
  (List.replicate n ['a', '\n']).flatten

theorem letterLines_succ (n : Nat) : letterLines (n + 1) = 'a' :: '\n' :: letterLines n :=
  rfl

theorem byteLength_letterLines (n : Nat) : byteLength (letterLines n) = 2 * n := by
  induction n with
  | zero => rfl
  | succ n ih =>
    have ha : 'a'.utf8Size = 1 := rfl
    have hbreak : '\n'.utf8Size = 1 := rfl
    rw [letterLines_succ, byteLength_cons, byteLength_cons, ih, ha, hbreak]
    omega

theorem count_letterLines (n : Nat) : (letterLines n).count '\n' = n := by
  induction n with
  | zero => rfl
  | succ n ih => simp [letterLines_succ, ih]

theorem unifyLineEnds_letterLines (n : Nat) :
    unifyLineEnds (letterLines n ++ ['%']) = letterLines n ++ ['%'] := by
  have hfrom : ∀ run, unifyLineEndsFrom run (letterLines n ++ ['%']) =
      run.reverse ++ (letterLines n ++ ['%']) := by
    induction n with
    | zero => exact fun run => rfl
    | succ n ih =>
      intro run
      change run.reverse ++ 'a' :: unifyLineEndsFrom ['\n'] (letterLines n ++ ['%']) = _
      rw [ih]
      rfl
  exact hfrom []

/-- The tree of a text that is not understood on its last line, behind so many lines. -/
def lastLine (n : Nat) : Tree where
  kind := .invalid
  span := { start := 2 * n + 1, stop := 2 * n + 2 }
  fields := []

theorem eq_nil_of_lastLine {n : Nat} (p : (lastLine n).NodeAddress) : p.1 = [] := by
  obtain ⟨p, hp⟩ := p
  cases p with
  | nil => rfl
  | cons i rest => cases hp

theorem node_lastLine {n : Nat} (p : (lastLine n).NodeAddress) : p.node = lastLine n := by
  have hp := p.node?_eq
  rw [eq_nil_of_lastLine p] at hp
  exact (Option.some.inj hp).symm

theorem nested_lastLine (n : Nat) : (lastLine n).Nested := by
  rintro p q ⟨-, hne, -⟩
  exact absurd (Subtype.ext ((eq_nil_of_lastLine p).trans (eq_nil_of_lastLine q).symm)) hne

/-- The error tells the line behind so many others, as far as 32 bits can tell it. -/
theorem extract_lastLine (n : Nat) :
    extract (fun _ _ => .ok (lastLine n)) (String.ofList (letterLines n ++ ['%'])) =
      .error (.fault (2 * n) (n.toUInt32 + 1)) := by
  let source := String.ofList (letterLines n ++ ['%'])
  let reader : Reader := fun _ _ => .ok (lastLine n)
  have hread : reader .standard (String.ofList (unifyLineEnds source.toList)) = .ok (lastLine n) :=
    rfl
  obtain ⟨o, -, -, hperm, hrefuse⟩ := exists_walk_to_fault hread (nested_lastLine n)
  obtain ⟨id, hid⟩ := Option.isSome_iff_exists.mp
    ((isSome_firstInvalid?_iff hperm).mpr ⟨.top _, rfl⟩)
  obtain ⟨m, hm⟩ := exists_node_of_firstInvalid? hid
  have hstart : m.span.start = 2 * n := by
    obtain ⟨p, -, hd⟩ := Arena.exists_depicts hm
    rw [hd.span, node_lastLine]
    rfl
  have hline : lineAt (unifyLineEnds source.toList) (2 * n) = n.toUInt32 + 1 := by
    rw [String.toList_ofList, unifyLineEnds_letterLines, ← byteLength_letterLines, lineAt_eq,
      count_letterLines]
  exact (hrefuse _ _).mpr ⟨id, m, hid, hm, hstart.symm, hline.symm⟩

/-- Behind so many lines as 32 bits can number, the count starts again: the error tells line 1. -/
theorem lastLine_wraps :
    unifyLineEnds (letterLines UInt32.size ++ ['%']) = letterLines UInt32.size ++ ['%'] ∧
    (letterLines UInt32.size).count '\n' = UInt32.size ∧
    extract (fun _ _ => .ok (lastLine UInt32.size))
      (String.ofList (letterLines UInt32.size ++ ['%'])) =
        .error (.fault (byteLength (letterLines UInt32.size)) 1) := by
  refine ⟨unifyLineEnds_letterLines _, count_letterLines _, ?_⟩
  rw [byteLength_letterLines]
  exact extract_lastLine UInt32.size

end Source

end Stepflow
