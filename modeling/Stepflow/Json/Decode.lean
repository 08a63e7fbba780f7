import Stepflow.Json.Reader

/-!
# Taking JSON values apart

* `Fault`: why a value is not what was asked for.
* `Decoder`: from a value to what it describes. Decoders go from front to back, so of several faults
  the first one in the text is found.
* `Decoder.record`: objects with known keys. Other keys are skipped, and a known key comes once. An
  array of the values, in the order of the keys, will do as well.
-/

namespace Stepflow.Json

/-- Why a value could not be taken apart: its shape is wrong, or a text in it was refused. -/
inductive Fault where
  | malformed
  | refused (message : String)
  deriving DecidableEq, Repr

/-- From a value to what it describes. -/
abbrev Decoder (α : Type) := Value → Except Fault α

namespace Decoder

/-- A text. -/
def text : Decoder String
  | .string s => .ok s
  | _ => .error .malformed

/-- `true` or `false`. -/
def bool : Decoder Bool
  | .bool b => .ok b
  | _ => .error .malformed

/-- An integer between two bounds, the second one excluded. -/
def int (low high : Int) : Decoder Int
  | .int n => if low ≤ n ∧ n < high then .ok n else .error .malformed
  | _ => .error .malformed

/-- A natural number of at most the given number of bits. -/
def word (bits : Nat) : Decoder Nat := fun v =>
  (int 0 (Nat.pow 2 bits) v).map Int.toNat

/-- A number; integers are rounded. -/
def double : Decoder Double
  | .int n => .ok (Double.ofInt n)
  | .float x => .ok x
  | _ => .error .malformed

/-- `null`, or something. -/
def optional {α : Type} (d : Decoder α) : Decoder (Option α)
  | .null => .ok none
  | v => (d v).map some

/-- All items, in order. -/
def items {α : Type} (d : Decoder α) : List Value → Except Fault (List α)
  | [] => .ok []
  | v :: vs => do
    let x ← d v
    let xs ← items d vs
    .ok (x :: xs)

/-- An array. -/
def list {α : Type} (d : Decoder α) : Decoder (List α)
  | .array vs => items d vs
  | _ => .error .malformed

/-- A known key of an object, and what its value adds to what is known so far. An array may end in
    front of a value that is `spare`. -/
structure Slot (σ : Type) where
  key : String
  spare : Bool
  put : Value → σ → Except Fault σ

/-- The value of a key, given by its decoder and what it is to what is known. -/
def slot {σ α : Type} (key : String) (d : Decoder α) (put : α → σ → σ) : Slot σ where
  key := key
  spare := false
  put := fun v state => (d v).map (put · state)

/-- The value of a key that an array may end in front of. -/
def spareSlot {σ α : Type} (key : String) (d : Decoder α) (put : α → σ → σ) : Slot σ :=
  { slot key d put with spare := true }

/-- The members of an object, one after the other; `seen` are the known keys so far. -/
def members {σ : Type} (slots : List (Slot σ)) (seen : List String) (state : σ) :
    List (String × Value) → Except Fault σ
  | [] => .ok state
  | (_, .stray) :: _ => .error .malformed
  | (key, v) :: rest =>
    match slots.find? (·.key == key) with
    | none => if v.isWhole then members slots seen state rest else .error .malformed
    | some slot =>
      if seen.contains key then .error .malformed
      else do
        let next ← slot.put v state
        members slots (key :: seen) next rest

/-- The items of an array, each as the value of the next key. -/
def inOrder {σ : Type} (slots : List (Slot σ)) (state : σ) : List Value → Except Fault σ
  | [] => if slots.all (·.spare) then .ok state else .error .malformed
  | v :: vs =>
    match slots with
    | [] => .error .malformed
    | slot :: slots => do
      let next ← slot.put v state
      inOrder slots next vs

/-- An object with known keys, or an array of their values. -/
def record {σ : Type} (slots : List (Slot σ)) (start : σ) : Decoder σ
  | .object ms => members slots [] start ms
  | .array vs => inOrder slots start vs
  | _ => .error .malformed

/-- A value that must have been given. -/
def required {α : Type} : Option α → Except Fault α
  | some x => .ok x
  | none => .error .malformed

/-- One of several names, alone or as the only key of an object with the value `null`. -/
def name {α : Type} (names : List (String × α)) : Decoder α
  | .string s => required (names.lookup s)
  | .object [(s, .null)] => required (names.lookup s)
  | _ => .error .malformed

end Decoder

/-- Takes the value of a whole text apart. What follows the value comes last. -/
def decode {α : Type} (d : Decoder α) (s : String) : Except Fault α := do
  let (v, complete) := readText s
  let x ← d v
  if complete then .ok x else .error .malformed

end Stepflow.Json
