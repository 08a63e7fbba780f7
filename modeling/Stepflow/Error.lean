/-!
# Errors

* `Error`: why no charts could be delivered.
* `Error.message`: the error in words.
-/

namespace Stepflow

/-- What was done to a configuration when it failed. -/
inductive ConfigAction where
  | create
  | write
  | replace
  | read
  | parse
  deriving DecidableEq, Repr

/-- The action in words. -/
def ConfigAction.verb : ConfigAction → String
  | create => "create"
  | write => "write"
  | replace => "replace"
  | read => "read"
  | parse => "parse"

/-- Why no charts could be delivered.

    * `parse`: the reader of the source failed, perhaps at a known line.
    * `fault`: the source does not fit the grammar at a byte, which lies on a line. Lines are
      counted in 32 bits.
    * `file`: a source file could not be read.
    * `config`: a configuration could not be read or saved.
    * `io`: a result could not be written. -/
inductive Error where
  | parse (message : String) (line : Option Nat)
  | fault (byte : Nat) (line : UInt32)
  | file (message path : String)
  | config (action : ConfigAction) (path cause : String)
  | io (message : String)
  deriving DecidableEq, Repr

namespace Error

/-- A line that may be unknown, in words. -/
def lineText : Option Nat → String
  | some n => "Some(" ++ toString n ++ ")"
  | none => "None"

/-- The error in words. -/
def message : Error → String
  | parse message line => "parse error: " ++ message ++ " (line: " ++ lineText line ++ ")"
  | fault byte line =>
    "validation error: syntax error at byte " ++ toString byte ++ " (line " ++ toString line ++ ")"
  | file message path => "file error: " ++ message ++ " (path: " ++ path ++ ")"
  | config action path cause =>
    "config error: failed to " ++ action.verb ++ " '" ++ path ++ "': " ++ cause
  | io message => "io error: " ++ message

end Error

end Stepflow
