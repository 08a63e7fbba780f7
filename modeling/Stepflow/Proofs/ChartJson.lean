import Mathlib
import Stepflow.Flow.Codec
import Stepflow.Proofs.JsonText
import Stepflow.Proofs.Numerals
import Stepflow.Proofs.PairText
import Stepflow.Proofs.Rounding
import Stepflow.Render

/-!
# Charts survive their JSON text

What a chart says is written as JSON and read again. Absent members and empty lists are left out
and come back as such, and edges and pairs of numbers come back from their texts.

* `Json.Decoder.Carries`: a value fits into a text and is read as something.
* `Json.Decoder.Enters`: what some members of an object add to what is known.
* `Flow.Chart.Portable`: the numbers of a chart are in the ranges of their types.
* `Flow.Chart.plain`: the chart with zeros that have no sign.

Results:
* `Json.Decoder.Carries.record`: an object with known keys, each at most once, is read.
* `Json.Decoder.record_array`: an array of the values is read as the object is.
* `Flow.carries_pair`, `Flow.Edge.ofText_text`: pairs of numbers and edges.
* `Flow.Step.carries`, `Flow.Sequence.carries`, `Flow.Variable.carries`, `Flow.Chart.carries`: each
  record is read as it was written.
* `Flow.decode_render`: lists of charts survive, on one line and on many.
-/

namespace Stepflow

/-! ## Records -/

namespace Json.Decoder

variable {σ α β : Type}

theorem ok_bind (x : α) (f : α → Except Fault β) : (.ok x >>= f : Except Fault β) = f x := rfl

/-- The value has a text from which it comes back, and the decoder reads it as `x`. -/
structure Carries (d : Decoder α) (room : Nat) (v : Value) (x : α) : Prop where
  decoded : d v = .ok x
  fits : v.Fits room

theorem Carries.text (room : Nat) (s : String) : Carries Decoder.text room (.string s) s :=
  ⟨rfl, by rw [Value.Fits]; trivial⟩

/-- What was read is looked at further. -/
theorem Carries.bind {d : Decoder α} {room : Nat} {v : Value} {x : α} {f : α → Except Fault β}
    {y : β} (h : Carries d room v x) (hf : f x = .ok y) :
    Carries (fun v => d v >>= f) room v y :=
  ⟨(congrArg (· >>= f) h.decoded).trans hf, h.fits⟩

/-- The items of an array. -/
theorem Carries.list {d : Decoder β} {room : Nat} {json : α → Value} {norm : α → β} {xs : List α}
    (h : ∀ x ∈ xs, Carries d room (json x) (norm x)) :
    Carries (Decoder.list d) (room + 1) (.array (xs.map json)) (xs.map norm) where
  decoded := by
    rw [Decoder.list]
    induction xs with
    | nil => rfl
    | cons x xs ih =>
      rw [List.map_cons, items, (h x List.mem_cons_self).decoded, ok_bind,
        ih fun y hy => h y (List.mem_cons_of_mem _ hy)]
      rfl
  fits := by
    rw [Value.Fits, Value.allFit_iff]
    refine ⟨Nat.succ_pos room, fun v hv => ?_⟩
    obtain ⟨x, hx, rfl⟩ := List.mem_map.mp hv
    exact (h x hx).fits

/-! ### Members -/

/-- What a member adds to what is known. -/
def enter (slots : List (Slot σ)) (state : σ) (m : String × Value) : Except Fault σ :=
  match slots.find? (·.key == m.1) with
  | some slot => slot.put m.2 state
  | none => .ok state

/-- The members of an object have only the given keys, in this order, and lead from what is known
    before them to what is known behind them. -/
structure Enters (slots : List (Slot σ)) (room : Nat) (keys : List String) (state : σ)
    (ms : List (String × Value)) (state' : σ) : Prop where
  entered : ms.foldlM (enter slots) state = .ok state'
  keys : (ms.map (·.1)).Sublist keys
  fits : ∀ m ∈ ms, m.2.Fits room

variable {slots : List (Slot σ)} {room : Nat} {keys keys' : List String}
  {state state' state'' : σ} {ms ms' : List (String × Value)}

theorem Enters.nil (slots : List (Slot σ)) (room : Nat) (keys : List String) (state : σ) :
    Enters slots room keys state [] state :=
  ⟨rfl, List.nil_sublist _, nofun⟩

theorem Enters.append (h : Enters slots room keys state ms state')
    (h' : Enters slots room keys' state' ms' state'') :
    Enters slots room (keys ++ keys') state (ms ++ ms') state'' where
  entered := by
    rw [List.foldlM_append, h.entered]
    exact h'.entered
  keys := by
    rw [List.map_append]
    exact h.keys.append h'.keys
  fits := List.forall_mem_append.mpr ⟨h.fits, h'.fits⟩

/-- If each known key comes at most once, the members are entered one after the other. -/
theorem members_eq_foldlM (hnodup : (slots.map (·.key)).Nodup)
    (hkeys : (ms.map (·.1)).Sublist (slots.map (·.key))) (hstray : ∀ m ∈ ms, m.2 ≠ .stray)
    {seen : List String} (hseen : ∀ m ∈ ms, m.1 ∉ seen) (state : σ) :
    members slots seen state ms = ms.foldlM (enter slots) state := by
  have hms := hkeys.nodup hnodup
  induction ms generalizing seen state with
  | nil => rw [members]; rfl
  | cons m ms ih =>
    obtain ⟨key, v⟩ := m
    have hfind : ∃ slot, slots.find? (·.key == key) = some slot := by
      rw [← Option.isSome_iff_exists, List.find?_isSome]
      obtain ⟨slot, hslot, hkey⟩ := List.mem_map.mp (hkeys.subset List.mem_cons_self)
      exact ⟨slot, hslot, beq_iff_eq.mpr hkey⟩
    obtain ⟨slot, hfind⟩ := hfind
    rw [List.map_cons, List.nodup_cons] at hms
    have hrest : ∀ next, members slots (key :: seen) next ms = ms.foldlM (enter slots) next := by
      refine fun next => ih ((List.sublist_cons_self _ _).trans hkeys)
        (fun m hm => hstray m (List.mem_cons_of_mem _ hm)) (fun m hm => ?_) next hms.2
      rw [List.mem_cons, not_or]
      refine ⟨?_, hseen m (List.mem_cons_of_mem _ hm)⟩
      intro heq
      exact hms.1 (List.mem_map.mpr ⟨m, hm, heq⟩)
    rw [members, hfind, List.foldlM_cons, enter, hfind]
    · dsimp only
      rw [if_neg (by simpa using hseen _ List.mem_cons_self)]
      simp only [hrest]
    · rintro rfl
      exact hstray _ List.mem_cons_self rfl

/-- An object with known keys, each at most once. -/
theorem Carries.record (hnodup : (slots.map (·.key)).Nodup)
    (h : Enters slots room (slots.map (·.key)) state ms state') :
    Carries (Decoder.record slots state) (room + 1) (.object ms) state' where
  decoded := by
    have hstray : ∀ m ∈ ms, m.2 ≠ .stray := by
      intro m hm hstray
      have hfits := h.fits m hm
      rw [hstray, Value.Fits] at hfits
      exact hfits
    rw [Decoder.record,
      members_eq_foldlM hnodup h.keys hstray (fun _ _ => List.not_mem_nil), h.entered]
  fits := by
    rw [Value.Fits, Value.membersFit_iff]
    exact ⟨Nat.succ_pos room, h.fits⟩

theorem find?_key (hnodup : (slots.map (·.key)).Nodup) {slot : Slot σ} (h : slot ∈ slots) :
    slots.find? (·.key == slot.key) = some slot := by
  induction slots with
  | nil => cases h
  | cons first rest ih =>
    rw [List.map_cons, List.nodup_cons] at hnodup
    rcases List.mem_cons.mp h with rfl | hrest
    · exact List.find?_cons_of_pos (beq_self_eq_true _)
    · have hne : first.key ≠ slot.key := fun heq =>
        hnodup.1 (heq ▸ List.mem_map_of_mem hrest)
      rw [List.find?_cons_of_neg (by simpa using hne), ih hnodup.2 hrest]

/-- The items of an array are entered as the members with the next keys are. -/
theorem inOrder_eq_foldlM (hnodup : (slots.map (·.key)).Nodup) {rest : List (Slot σ)}
    (hrest : rest ⊆ slots) {vs : List Value} (hlen : vs.length ≤ rest.length)
    (hspare : ∀ slot ∈ rest.drop vs.length, slot.spare = true) (state : σ) :
    inOrder rest state vs = ((rest.map (·.key)).zip vs).foldlM (enter slots) state := by
  induction vs generalizing rest state with
  | nil =>
    have hall : rest.all (·.spare) = true := List.all_eq_true.mpr hspare
    rw [inOrder, if_pos hall, List.zip_nil_right]
    rfl
  | cons v vs ih =>
    cases rest with
    | nil => cases hlen
    | cons slot rest =>
      rw [List.cons_subset] at hrest
      simp only [inOrder, List.map_cons, List.zip_cons_cons, List.foldlM_cons, enter,
        find?_key hnodup hrest.1, ih hrest.2 (Nat.le_of_succ_le_succ hlen) hspare]

/-- An array of values is read as the object with these values under the first keys, if the other
    keys are spare. -/
theorem record_array (hnodup : (slots.map (·.key)).Nodup) {vs : List Value}
    (hlen : vs.length ≤ slots.length) (hstray : .stray ∉ vs)
    (hspare : ∀ slot ∈ slots.drop vs.length, slot.spare = true) :
    record slots state (.array vs) =
      record slots state (.object ((slots.map (·.key)).zip vs)) := by
  have hkeys : (((slots.map (·.key)).zip vs).map (·.1)).Sublist (slots.map (·.key)) := by
    rw [List.zip_eq_zip_take_min, List.map_fst_zip (by simp)]
    exact List.take_sublist _ _
  rw [record, record, inOrder_eq_foldlM hnodup (List.Subset.refl _) hlen hspare,
    members_eq_foldlM hnodup hkeys (fun m hm heq => hstray (heq ▸ (List.of_mem_zip hm).2))
      fun _ _ => List.not_mem_nil]

/-- A member under a known key. -/
theorem Enters.member (key : String) {spare : Bool} {d : Decoder α} {put : α → σ → σ}
    {v : Value} {x : α}
    (hfind : slots.find? (·.key == key) = some { slot key d put with spare := spare })
    (h : Carries d room v x) :
    Enters slots room [key] state [(key, v)] (put x state) where
  entered := by
    rw [List.foldlM_cons, enter, hfind]
    change ((d v).map (put · state) >>= _) = _
    rw [h.decoded]
    rfl
  keys := List.Sublist.refl _
  fits := by simpa using h.fits

/-- A member that may be absent. -/
theorem Enters.optional (key : String) {d : Decoder β} {put : Option β → σ → σ}
    {json : α → Value} {norm : α → β} {x : Option α}
    (hfind : slots.find? (·.key == key) = some (spareSlot key (Decoder.optional d) put))
    (hput : put none state = state)
    (h : ∀ y ∈ x, Carries (Decoder.optional d) room (json y) (some (norm y))) :
    Enters slots room [key] state (Flow.optionalMember key json x) (put (x.map norm) state) := by
  cases x with
  | none =>
    rw [Option.map_none, hput]
    exact .nil ..
  | some y => exact .member key hfind (h y rfl)

/-- A text that may be absent. -/
theorem Enters.text (key : String) {put : Option String → σ → σ} (x : Option String)
    (hfind : slots.find? (·.key == key) = some (spareSlot key Flow.optionalText put))
    (hput : put none state = state) :
    Enters slots room [key] state (Flow.optionalMember key .string x) (put x state) := by
  have h : Enters slots room [key] state (Flow.optionalMember key .string x)
      (put (x.map id) state) :=
    .optional key hfind hput fun s _ => ⟨rfl, (Carries.text room s).fits⟩
  rwa [Option.map_id, id] at h

/-- A list that is left out if it is empty. -/
theorem Enters.list (key : String) {d : Decoder β} {put : List β → σ → σ} {json : α → Value}
    {norm : α → β} {xs : List α}
    (hfind : slots.find? (·.key == key) = some (spareSlot key (Decoder.list d) put))
    (hput : put [] state = state) (h : ∀ x ∈ xs, Carries d room (json x) (norm x)) :
    Enters slots (room + 1) [key] state (Flow.listMember key json xs)
      (put (xs.map norm) state) := by
  cases xs with
  | nil =>
    rw [List.map_nil, hput]
    exact .nil ..
  | cons x xs => exact .member key hfind (.list h)

end Json.Decoder

namespace Flow

open Json (Value Decoder)
open Json.Decoder (Carries Enters)

/-! ## Pairs of numbers -/

theorem carries_pair {p : Nat × Nat} (hfst : p.1 < wordCount) (hsnd : p.2 < wordCount)
    (room : Nat) : Carries pairDecoder room (.string (pairText p)) p where
  decoded := by
    rw [pairDecoder_eq, pairOfText?_pairText hfst hsnd]
    rfl
  fits := (Carries.text ..).fits

/-! ## Edges -/

/-- The edge with a target that has no sign if it is zero. -/
def Edge.plain (e : Edge) : Edge :=
  { e with target := e.target.unsigned }

/-- The target of the edge is an integer of at most fifteen digits. -/
def Edge.Portable (e : Edge) : Prop :=
  e.target.Valid ∧ ∃ n ∈ e.target.toInt?, n.natAbs < 10 ^ 15
  deriving Decidable

theorem halves?_of_not_mem {front back : String} (h : ' ' ∉ front.toList) :
    Edge.halves? (front ++ " " ++ back) = some (front, back) := by
  have htext : (front ++ " " ++ back).toList = front.toList ++ ' ' :: back.toList := by
    rw [String.toList_append, String.toList_append, List.append_assoc]
    rfl
  have hfront : ∀ c ∈ front.toList, (c != ' ') = true := by
    intro c hc
    rw [bne_iff_ne]
    rintro rfl
    exact h hc
  rw [Edge.halves?, htext, List.dropWhile_append_of_pos hfront,
    List.takeWhile_append_of_pos hfront]
  simp

/-- A written edge is read as that edge. -/
theorem Edge.ofText_text {e : Edge} (h : e.Portable) : Edge.ofText e.text = .ok e.plain := by
  obtain ⟨hvalid, n, hn, hlt⟩ := h
  have hlabel : e.target.label = toString n := by
    rw [Double.label, hn]
    exact if_pos hlt
  have hlength : Double.decimalLength n.natAbs ≤ 400 := by
    have := Nat.toDigits_length 10 n.natAbs 15 (by decide) hlt
    rw [Double.decimalLength]
    omega
  have hnumeral := Double.ofNumeral?_toString hlength
  have hspace : ' ' ∉ (toString n).toList :=
    (Double.ofNumeral?_eq_some_iff.mp hnumeral).not_mem_space
  rw [Edge.ofText, Edge.text, hlabel, halves?_of_not_mem hspace]
  dsimp only
  rw [hnumeral, Mode.ofOperator?_eq_some_iff.mpr rfl, hvalid.ofInt_eq hn]
  rfl

theorem Edge.carries {e : Edge} (h : e.Portable) (room : Nat) :
    Carries optionalEdge room e.json (some e.plain) where
  decoded := by
    change (Edge.decoder (.string e.text)).map some = _
    rw [Edge.decoder, Decoder.text, Decoder.ok_bind, Edge.ofText_text h]
    rfl
  fits := (Carries.text ..).fits

/-! ## Steps and sequences -/

/-- The edges of a step. -/
def Step.edges (s : Step) : List Edge :=
  s.fail.toList ++ s.last.toList ++ s.next.toList

/-- The step with targets that have no sign if they are zero. -/
def Step.plain (s : Step) : Step :=
  { s with fail := s.fail.map Edge.plain, last := s.last.map Edge.plain,
           next := s.next.map Edge.plain }

/-- A step is read as it was written. -/
theorem Step.carries {s : Step} (h : ∀ e ∈ s.edges, e.Portable) (room : Nat) :
    Carries Step.decoder (room + 1) s.json s.plain := by
  simp only [Step.edges, List.mem_append, Option.mem_toList, or_imp, forall_and] at h
  obtain ⟨⟨hfail, hlast⟩, hnext⟩ := h
  have hedge : ∀ {x : Option Edge}, (∀ e ∈ x, e.Portable) →
      ∀ e ∈ x, Carries optionalEdge room e.json (some e.plain) :=
    fun hx e he => Edge.carries (hx e he) room
  have henters := (.text "code" s.code rfl rfl : Enters Step.slots room _ {} _ _)
    |>.append (.text "assign" s.assign rfl rfl)
    |>.append (.optional "fail" rfl rfl (hedge hfail))
    |>.append (.optional "last" rfl rfl (hedge hlast))
    |>.append (.optional "next" rfl rfl (hedge hnext))
    |>.append (.text "name" s.name rfl rfl)
    |>.append (.text "info" s.info rfl rfl)
    |>.append (.text "px" s.px rfl rfl)
  exact .record (by decide) henters

/-- The sequence with targets that have no sign if they are zero. -/
def Sequence.plain (s : Sequence) : Sequence :=
  { s with steps := s.steps.map Step.plain }

/-- The number of the sequence has 64 bits, and all edges are portable. -/
structure Sequence.Portable (s : Sequence) : Prop where
  low : -idBound ≤ s.id
  high : s.id < idBound
  edges : ∀ step ∈ s.steps, ∀ e ∈ step.edges, e.Portable

theorem carries_id {n : Int} (hlow : -idBound ≤ n) (hhigh : n < idBound) (room : Nat) :
    Carries (Decoder.int (-idBound) idBound) room (.int n) n where
  decoded := if_pos ⟨hlow, hhigh⟩
  fits := by
    have hbound : idBound = 2 ^ 63 := rfl
    rw [Value.Fits]
    omega

/-- A sequence is read as it was written. -/
theorem Sequence.carries {s : Sequence} (h : s.Portable) (room : Nat) :
    Carries Sequence.decoder (room + 3) s.json s.plain := by
  have hsteps : ∀ step ∈ s.steps, Carries Step.decoder (room + 1) step.json step.plain :=
    fun step hstep => Step.carries (h.edges step hstep) room
  have henters := (.member "id" rfl (carries_id h.low h.high _) :
      Enters Sequence.slots (room + 2) _ {} _ _)
    |>.append (.member "steps" rfl (.list hsteps))
  exact (Carries.record (by decide) henters).bind rfl

/-! ## Variables -/

/-- The first value is a truth value, a text or an integer of 64 bits, with or without a sign. -/
def Initial.Portable : Initial → Prop
  | bool _ | text _ => True
  | int n => -2 ^ 63 ≤ n ∧ n < 2 ^ 64
  | float _ => False

instance : DecidablePred Initial.Portable
  | .bool _ | .text _ => inferInstanceAs (Decidable True)
  | .int n => inferInstanceAs (Decidable (-2 ^ 63 ≤ n ∧ n < 2 ^ 64))
  | .float _ => inferInstanceAs (Decidable False)

theorem Initial.carries {x : Initial} (h : x.Portable) (room : Nat) :
    Carries (Decoder.optional Initial.decoder) room x.json (some x) where
  decoded := by cases x <;> rfl
  fits := by
    cases x with
    | bool b => rw [Initial.json, Value.Fits]; trivial
    | int n => rw [Initial.json, Value.Fits]; exact h
    | float x => exact h.elim
    | text s => exact (Carries.text room s).fits

/-- A variable is read as it was written. -/
theorem Variable.carries {v : Variable} (h : ∀ x ∈ v.init, x.Portable) (room : Nat) :
    Carries Variable.decoder (room + 1) v.json v := by
  have hinit : ∀ x ∈ v.init, Carries (Decoder.optional Initial.decoder) room x.json (some (id x)) :=
    fun x hx => Initial.carries (h x hx) room
  have henters := (.member "name" rfl (.text _ v.name) : Enters Variable.slots room _ {} _ _)
    |>.append (.text "type" v.type rfl rfl)
    |>.append (.optional "init" rfl rfl hinit)
  rw [Option.map_id, id] at henters
  exact (Carries.record (by decide) henters).bind rfl

/-! ## Charts -/

/-- The chart with targets that have no sign if they are zero. -/
def Chart.plain (c : Chart) : Chart :=
  { c with body := c.body.map Sequence.plain }

/-- The edges of a chart. -/
def Chart.edges (c : Chart) : List Edge :=
  c.body.flatMap fun s => s.steps.flatMap Step.edges

/-- All numbers of the chart have 64 bits, the first values of its variables are portable, and so
    are its edges. -/
@[mk_iff]
structure Chart.Portable (c : Chart) : Prop where
  indent : c.indent.1 < wordCount ∧ c.indent.2 < wordCount
  span : c.span.1 < wordCount ∧ c.span.2 < wordCount
  vars : ∀ v ∈ c.vars, ∀ x ∈ v.init, x.Portable
  ids : ∀ s ∈ c.body, -idBound ≤ s.id ∧ s.id < idBound
  edges : ∀ e ∈ c.edges, e.Portable

instance : DecidablePred Chart.Portable :=
  fun c => decidable_of_iff' _ c.portable_iff

/-- A chart is read as it was written. -/
theorem Chart.carries {c : Chart} (h : c.Portable) (room : Nat) :
    Carries Chart.decoder (room + 5) c.json c.plain := by
  have hvars : ∀ v ∈ c.vars, Carries Variable.decoder (room + 3) v.json v :=
    fun v hv => Variable.carries (h.vars v hv) (room + 2)
  have hbody : ∀ s ∈ c.body, Carries Sequence.decoder (room + 3) s.json s.plain := by
    refine fun s hs => Sequence.carries ⟨(h.ids s hs).1, (h.ids s hs).2, ?_⟩ room
    intro step hstep e he
    exact h.edges e (List.mem_flatMap.mpr ⟨s, hs, List.mem_flatMap.mpr ⟨step, hstep, he⟩⟩)
  have htexts := (.member "id" rfl (.text _ c.id) : Enters Chart.slots (room + 4) _ {} _ _)
    |>.append (.member "name" rfl (.text _ c.name))
    |>.append (.text "info" c.info rfl rfl)
    |>.append (.text "px" c.px rfl rfl)
  -- The state between is written out: as nested updates it would grow with every member.
  have hpairs := (.member "indent" rfl (carries_pair h.indent.1 h.indent.2 _) :
      Enters Chart.slots (room + 4) _
        { id := some c.id, name := some c.name, info := c.info, px := c.px } _ _)
    |>.append (.member "span" rfl (carries_pair h.span.1 h.span.2 _))
    |>.append (.list "vars" rfl rfl hvars)
  rw [List.map_id'] at hpairs
  have henters := (htexts.append hpairs).append (.list "body" rfl rfl hbody)
  exact (Carries.record (by decide) henters).bind rfl

theorem Edge.plain_eq_self {e : Edge} (h : e.target ≠ Double.zero true) : e.plain = e := by
  rw [Edge.plain, Double.unsigned, if_neg h]

theorem Step.plain_eq_self {s : Step} (h : ∀ e ∈ s.edges, e.target ≠ Double.zero true) :
    s.plain = s := by
  simp only [Step.edges, List.mem_append, Option.mem_toList, or_imp, forall_and] at h
  obtain ⟨⟨hfail, hlast⟩, hnext⟩ := h
  have hedge : ∀ {x : Option Edge}, (∀ e ∈ x, e.target ≠ Double.zero true) →
      x.map Edge.plain = x := by
    intro x hx
    cases x with
    | none => rfl
    | some e => rw [Option.map_some, Edge.plain_eq_self (hx e rfl)]
  rw [Step.plain, hedge hfail, hedge hlast, hedge hnext]

theorem map_eq_self {α : Type} {f : α → α} {xs : List α} (h : ∀ x ∈ xs, f x = x) :
    xs.map f = xs :=
  (List.map_congr_left h).trans (List.map_id' xs)

theorem Chart.plain_eq_self {c : Chart} (h : ∀ e ∈ c.edges, e.target ≠ Double.zero true) :
    c.plain = c := by
  rw [Chart.plain, map_eq_self]
  intro s hs
  rw [Sequence.plain, map_eq_self]
  intro step hstep
  refine Step.plain_eq_self fun e he => h e ?_
  exact List.mem_flatMap.mpr ⟨s, hs, List.mem_flatMap.mpr ⟨step, hstep, he⟩⟩

/-- Charts come back from their JSON, in the pretty form and in the short one. The one thing that
    is lost is the sign of a zero to which an edge leads. -/
theorem decode_render {charts : List Chart} (h : ∀ c ∈ charts, c.Portable) (pretty : Bool) :
    Json.decode (Decoder.list Chart.decoder)
        (render .json pretty (.array (charts.map Chart.json))) = .ok (charts.map Chart.plain) ∧
      ((∀ c ∈ charts, ∀ e ∈ c.edges, e.target ≠ Double.zero true) →
        Json.decode (Decoder.list Chart.decoder)
          (render .json pretty (.array (charts.map Chart.json))) = .ok charts) := by
  have hcarries : Carries (Decoder.list Chart.decoder) Json.maxDepth
      (.array (charts.map Chart.json)) (charts.map Chart.plain) :=
    .list fun c hc => Chart.carries (h c hc) 121
  have hdecode : Json.decode (Decoder.list Chart.decoder)
      (render .json pretty (.array (charts.map Chart.json))) = .ok (charts.map Chart.plain) := by
    rw [Json.decode, render, Json.readText_write hcarries.fits]
    dsimp only
    rw [hcarries.decoded]
    rfl
  refine ⟨hdecode, fun hzero => ?_⟩
  rw [hdecode, map_eq_self fun c hc => Chart.plain_eq_self (hzero c hc)]

/-- A chart with texts that need escapes and with numbers at the ends of their ranges. -/
def oddChart : Chart where
  id := "f"
  name := "\"𝄞\"\n"
  info := none
  px := some ""
  indent := (4, 18446744073709551615)
  span := (0, 35)
  vars := [{ name := "a\\", type := none, init := some (.int 18446744073709551615) },
    { name := "", type := some "boolean", init := some (.bool false) }]
  body := [{ id := -9223372036854775808,
             steps := [{ next := some { target := Double.ofInt 999999999999999, mode := .holds } },
               { fail := some { target := Double.ofInt (-3), mode := .fails },
                 name := some "\x01" }] }]

theorem oddChart_decode :
    (∀ c ∈ [oddChart], c.Portable) ∧
      (∀ c ∈ [oddChart], ∀ e ∈ c.edges, e.target ≠ Double.zero true) ∧
      Json.decode (Decoder.list Chart.decoder)
        (render .json true (.array ([oddChart].map Chart.json))) = .ok [oddChart] :=
  have h : ∀ c ∈ [oddChart], c.Portable := by decide +kernel
  have hzero : ∀ c ∈ [oddChart], ∀ e ∈ c.edges, e.target ≠ Double.zero true := by decide +kernel
  ⟨h, hzero, (decode_render h true).2 hzero⟩

end Flow

end Stepflow
