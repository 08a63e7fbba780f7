import Stepflow.Render

/-!
# Arguments of the command line

* `Command`: what the command line can do.
* `Request`: what the arguments ask for.
* `parse`: from arguments to a request.

Options may stand before and behind other arguments, short ones may share a dash, and `--` ends
them. Of several faults the first one counts.
-/

namespace Stepflow.Cli

/-- What the command line can do. -/
inductive Command where
  | extract (file : String) (pretty : Bool) (format : Format) (withSource : Bool)
  | scan (path : Option String) (pretty : Bool) (format : Format) (output : Option String)
  | init (path : Option String)
  deriving DecidableEq, Repr

/-- What arguments ask for: a command, help, or nothing that can be done. -/
inductive Request where
  | run (command : Command)
  | help
  | usage
  deriving DecidableEq, Repr

/-! ## Options -/

/-- An option: its letter, its name, and the values that it takes, if it takes one. -/
structure Switch where
  letter : Char
  name : String
  value? : Option (String → Bool)

/-- The options and other arguments that were found. -/
structure Found where
  options : List (String × String) := []
  others : List String := []

namespace Found

/-- Adds an option, which may be given only once. -/
def add (found : Found) (o : Switch) (value : String) : Except Request Found :=
  if found.options.any (·.1 == o.name) then .error .usage
  else if o.value?.all (· value) then
    .ok { found with options := found.options ++ [(o.name, value)] }
  else .error .usage

/-- The value of an option. -/
def value? (found : Found) (name : String) : Option String :=
  found.options.lookup name

/-- The option was given. -/
def has (found : Found) (name : String) : Bool :=
  (found.value? name).isSome

end Found

/-- An argument that begins like an option. A dash alone does not. -/
def isDashed (arg : String) : Bool :=
  match arg.toList with
  | '-' :: _ :: _ => true
  | _ => false

/-- What is left to read: the letters behind a dash, then the arguments. -/
structure Left where
  letters : List Char := []
  args : List String

/-- The value of an option that stands in the next argument. -/
def nextValue (args : List String) : Except Request (String × List String) :=
  match args with
  | arg :: rest => if isDashed arg then .error .usage else .ok (arg, rest)
  | [] => .error .usage

/-- Reads one letter behind a dash. A value may follow in the same argument, perhaps behind an
    equals sign. -/
def readLetter (options : List Switch) (found : Found) (c : Char) (cs : List Char)
    (args : List String) : Except Request (Found × Left) :=
  match options.find? (·.letter == c) with
  | none => .error (if c = 'h' then .help else .usage)
  | some o =>
    match o.value?, cs with
    | none, _ => (found.add o "").map (·, { letters := cs, args := args })
    | some _, '=' :: value => (found.add o (String.ofList value)).map (·, { args := args })
    | some _, _ :: _ => (found.add o (String.ofList cs)).map (·, { args := args })
    | some _, [] => do
      let (value, rest) ← nextValue args
      (found.add o value).map (·, { args := rest })

/-- Reads an option by its name. A value may follow behind an equals sign or in the next
    argument. -/
def readName (options : List Switch) (found : Found) (cs : List Char) (args : List String) :
    Except Request (Found × Left) :=
  let name := String.ofList (cs.takeWhile (· != '='))
  let attached : Option String := match cs.dropWhile (· != '=') with
    | _ :: value => some (String.ofList value)
    | [] => none
  match options.find? (·.name == name) with
  | none => .error (if name = "help" ∧ attached.isNone then .help else .usage)
  | some o =>
    match o.value?, attached with
    | none, none => (found.add o "").map (·, { args := args })
    | none, some _ => .error .usage
    | some _, some value => (found.add o value).map (·, { args := args })
    | some _, none => do
      let (value, rest) ← nextValue args
      (found.add o value).map (·, { args := rest })

/-- Adds an argument that is no option. There is room for one. -/
def addOther (found : Found) (arg : String) : Except Request Found :=
  if found.others.isEmpty then .ok { found with others := [arg] } else .error .usage

/-- Reads all that is left; the first argument bounds the number of steps. -/
def readAll (options : List Switch) : Nat → Found → Left → Except Request Found
  | 0, found, _ => .ok found
  | fuel + 1, found, { letters := c :: cs, args } => do
    let (found, left) ← readLetter options found c cs args
    readAll options fuel found left
  | _ + 1, found, { letters := [], args := [] } => .ok found
  | fuel + 1, found, { letters := [], args := arg :: args } =>
    match arg.toList with
    | ['-', '-'] => args.foldlM addOther found
    | '-' :: '-' :: cs => do
      let (found, left) ← readName options found cs args
      readAll options fuel found left
    | '-' :: c :: cs => do
      let (found, left) ← readLetter options found c cs args
      readAll options fuel found left
    | _ => do
      let found ← addOther found arg
      readAll options fuel found { args := args }

/-- Reads the arguments of a command. -/
def readArgs (options : List Switch) (args : List String) : Except Request Found :=
  readAll options (args.foldr (fun arg n => arg.length + 1 + n) 0) {} { args := args }

/-! ## Commands -/

/-- The option for the pretty form. -/
def pretty : Switch := { letter := 'p', name := "pretty", value? := none }

/-- The option for the format. -/
def format : Switch where
  letter := 'f'
  name := "format"
  value? := some fun v => (Format.byName.lookup v).isSome

/-- The option for the source. -/
def withSource : Switch := { letter := 's', name := "with-source", value? := none }

/-- The option for the file that takes the result. -/
def output : Switch where
  letter := 'o'
  name := "output"
  value? := some fun v => !v.isEmpty

/-- The format that was asked for. -/
def Found.format (found : Found) : Format :=
  ((found.value? "format").bind fun v => Format.byName.lookup v).getD Format.standard

/-- Extraction needs a file. -/
def readExtract (args : List String) : Except Request Command := do
  let found ← readArgs [pretty, format, withSource] args
  match found.others with
  | [file] =>
    if file.isEmpty then .error .usage
    else .ok (.extract file (found.has "pretty") found.format (found.has "with-source"))
  | _ => .error .usage

/-- A scan takes a path and a file for the result. -/
def readScan (args : List String) : Except Request Command := do
  let found ← readArgs [pretty, format, output] args
  .ok (.scan found.others.head? (found.has "pretty") found.format (found.value? "output"))

/-- Initialization takes a path. -/
def readInit (args : List String) : Except Request Command := do
  let found ← readArgs [] args
  .ok (.init found.others.head?)

/-- The names of the commands. -/
def commandNames : List String := ["extract", "scan", "init", "help"]

/-- Asks for help on nothing or on one command. -/
def readHelp : List String → Request
  | [] => .help
  | [name] => if commandNames.contains name then .help else .usage
  | _ => .usage

/-- The request in front of which no command stands. -/
def readBare (arg : String) : Request :=
  match arg.toList with
  | '-' :: 'h' :: _ => .help
  | _ => if arg = "--help" then .help else .usage

/-- What a reading asks for. -/
def requestOf : Except Request Command → Request
  | .ok command => .run command
  | .error request => request

/-- What the arguments ask for. -/
def parse : List String → Request
  | "extract" :: args => requestOf (readExtract args)
  | "scan" :: args => requestOf (readScan args)
  | "init" :: args => requestOf (readInit args)
  | "help" :: args => readHelp args
  | arg :: _ => readBare arg
  | [] => .usage

end Stepflow.Cli
