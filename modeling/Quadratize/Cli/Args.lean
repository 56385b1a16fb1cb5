import Quadratize.Compile

/-!
# Arguments

The program has three commands. Options may stand before and after the positional arguments; what
follows `--` is positional.
-/

namespace Quadratize.Cli

open Text

/-- The options that change how circuits are compiled. -/
structure CompilerFlags where
  legacyWireOrder : Bool := false
  noZeroPropagation : Bool := false
deriving DecidableEq

/-- What the program is asked to do. -/
inductive Command
  /-- Compile circuits and write the results next to them. -/
  | convert (path : String) (flags : CompilerFlags) (inputs : Option (List String))
      (seed : Option Nat)
  /-- Evaluate a circuit as it is and write the witness next to it. -/
  | witness (file : String) (values : List String)
  /-- Compile a circuit and print a report. -/
  | stat (file : String) (flags : CompilerFlags) (json : Bool)
  | version
  | help
deriving DecidableEq

/-- The commands that take further arguments. -/
inductive Kind
  | convert
  | witness
  | stat
deriving DecidableEq

/-- The arguments of a command. -/
structure Settings where
  positionals : List String := []
  flags : CompilerFlags := {}
  json : Bool := false
  inputs : Option (List String) := none
  seed : Option Nat := none
deriving DecidableEq

/-- An option of a command. -/
inductive Flag
  | legacyWireOrder
  | noZeroPropagation
  | json
  | inputs
  | seed
deriving DecidableEq

namespace Flag

/-- The option with the given name, if the command has it. -/
def ofName? (kind : Kind) (name : String) : Option Flag :=
  match kind, name with
  | .convert, "--legacy-wire-order" | .stat, "--legacy-wire-order" => some legacyWireOrder
  | .convert, "--no-zero-propagation" | .stat, "--no-zero-propagation" => some noZeroPropagation
  | .stat, "--json" => some json
  | .convert, "--inputs" => some inputs
  | .convert, "--seed" => some seed
  | _, _ => none

/-- Whether the option takes a value. -/
def takesValue : Flag → Bool
  | inputs | seed => true
  | _ => false

end Flag

namespace Settings

/-- Turns a switch on; a switch may be given once. -/
def turnOn (s : Settings) : Flag → Option Settings
  | .legacyWireOrder =>
    if s.flags.legacyWireOrder then none
    else some { s with flags := { s.flags with legacyWireOrder := true } }
  | .noZeroPropagation =>
    if s.flags.noZeroPropagation then none
    else some { s with flags := { s.flags with noZeroPropagation := true } }
  | .json => if s.json then none else some { s with json := true }
  | _ => none

/-- Gives an option its value. Input values are separated by commas and add up; the seed is a
64-bit number and may be given once. -/
def give (s : Settings) (value : String) : Flag → Option Settings
  | .inputs =>
    let pieces := (value.toList.splitOn ',').map String.ofList
    some { s with inputs := some (s.inputs.getD [] ++ pieces) }
  | .seed =>
    match s.seed, readBelow? countLimit value.toList with
    | none, some n => some { s with seed := some n }
    | _, _ => none
  | _ => none

/-- Adds a positional argument. Only a witness takes more than one, and the first, which is a path,
may not be empty. -/
def addPositional (kind : Kind) (s : Settings) (arg : String) : Option Settings :=
  if s.positionals.isEmpty then
    if arg.isEmpty then none else some { s with positionals := [arg] }
  else if kind = .witness then some { s with positionals := s.positionals ++ [arg] }
  else none

/-- The command of the settings. -/
def toCommand? (kind : Kind) (s : Settings) : Option Command :=
  match s.positionals with
  | [] => none
  | path :: values =>
    match kind with
    | .convert => some (.convert path s.flags s.inputs s.seed)
    | .witness => some (.witness path values)
    | .stat => some (.stat path s.flags s.json)

end Settings

/-- Whether an argument looks like an option. -/
def looksLikeOption (arg : String) : Bool :=
  match arg.toList with
  | '-' :: _ :: _ => true
  | _ => false

/-- The name of a long option and the value attached to it with `=`. -/
def splitOption (arg : String) : String × Option String :=
  match Text.cut? '=' arg.toList with
  | some (name, value) => (String.ofList name, some (String.ofList value))
  | none => (arg, none)

/-- Whether an argument is the short option with the given letter. -/
def isShort (letter : Char) (arg : String) : Bool :=
  match arg.toList with
  | '-' :: c :: _ => c == letter
  | _ => false

/-- Reads the arguments of a command. -/
def readSettings (kind : Kind) : Settings → List String → Option Command
  | s, [] => s.toCommand? kind
  | s, arg :: rest =>
    if arg = "--" then (rest.foldlM (Settings.addPositional kind) s).bind (·.toCommand? kind)
    else if arg = "--help" ∨ isShort 'h' arg then some .help
    else if looksLikeOption arg then
      match Flag.ofName? kind (splitOption arg).1, (splitOption arg).2 with
      | none, _ => none
      | some flag, some value =>
        match s.give value flag with
        | some s => readSettings kind s rest
        | none => none
      | some flag, none =>
        if flag.takesValue then
          match rest with
          | [] => none
          | value :: rest =>
            if looksLikeOption value then none
            else
              match s.give value flag with
              | some s => readSettings kind s rest
              | none => none
        else
          match s.turnOn flag with
          | some s => readSettings kind s rest
          | none => none
    else
      match s.addPositional kind arg with
      | some s => readSettings kind s rest
      | none => none

/-- Whether the arguments name nothing or one command, so that help can be given on it. -/
def isHelpTopic : List String → Bool
  | [] => true
  | [topic] => topic ∈ ["convert", "witness", "stat", "help"]
  | _ => false

/-- Reads the arguments of the program. -/
def readArgs (args : List String) : Option Command :=
  match args with
  | [] => none
  | arg :: rest =>
    if arg = "--version" ∨ isShort 'V' arg then some .version
    else if arg = "--help" ∨ isShort 'h' arg then some .help
    else if arg = "help" then if isHelpTopic rest then some .help else none
    else if arg = "convert" then readSettings .convert {} rest
    else if arg = "witness" then readSettings .witness {} rest
    else if arg = "stat" then readSettings .stat {} rest
    else none

end Quadratize.Cli
