import Stepflow.Number.Double

/-!
# JSON values

* `Value`: what a JSON text denotes. Integers and other numbers are told apart by their spelling.
* `Value.isWhole`: the text went on as JSON through the whole value.

A text that stops being JSON still has a value up to there. So whoever takes a value apart from the
front meets the first fault of the text first, whether it is one of spelling or one of meaning.
-/

namespace Stepflow.Json

/-- A JSON value, as far as the text goes.

    * `variant` is a value under a tag: in JSON an object with the tag as its only key.
    * `unfit` is a stretch that is well spelled and denotes nothing here: a number out of range, a
      text with half of a surrogate pair, a container that is nested too deeply.
    * `stray` is a member of an object whose key is unfit.
    * `broken` is where the text stops being JSON; nothing follows it. -/
inductive Value where
  | null
  | bool (b : Bool)
  | int (n : Int)
  | float (x : Double)
  | string (s : String)
  | array (items : List Value)
  | object (members : List (String × Value))
  | variant (tag : String) (payload : Value)
  | unfit
  | stray
  | broken
  deriving Repr, Inhabited

namespace Value

mutual

/-- The text does not break off inside the value. -/
def isWhole : Value → Bool
  | array items => areWhole items
  | object members => membersAreWhole members
  | variant _ payload => payload.isWhole
  | broken => false
  | null | bool _ | int _ | float _ | string _ | unfit | stray => true

/-- The text does not break off inside the values. -/
def areWhole : List Value → Bool
  | [] => true
  | v :: vs => v.isWhole && areWhole vs

/-- The text does not break off inside the members. -/
def membersAreWhole : List (String × Value) → Bool
  | [] => true
  | (_, v) :: members => v.isWhole && membersAreWhole members

end

/-- The member of an object with the given key; of several, the last one. -/
def get? (key : String) : Value → Option Value
  | object members => (members.reverse.find? (·.1 == key)).map (·.2)
  | _ => none

/-- Something that may be absent. -/
def ofOption {α : Type} (json : α → Value) : Option α → Value
  | some x => json x
  | none => null

end Value

end Stepflow.Json
