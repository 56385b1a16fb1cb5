import Quadratize.Circuit.Text
import Quadratize.Cli.Args
import Quadratize.Constraint.Text
import Quadratize.Report

/-!
# Commands

The commands work on any host that can read and write files, so that they run on a real file
system as well as on a model of one.
-/

namespace Quadratize.Cli

open Text

/-- What the commands need from their surroundings. -/
structure Host (m : Type → Type) where
  /-- Whether an environment variable is set. -/
  isSet : String → m Bool
  /-- Whether a path is a directory. -/
  isDir : String → m Bool
  /-- The names of the files directly in a directory. -/
  list : String → m (List String)
  /-- The content of a file. -/
  read : String → m (Option String)
  /-- Writes a file and tells whether this succeeded. -/
  write : String → String → m Bool
  /-- Prepares the random numbers; without a seed they are arbitrary. -/
  seed : Option Nat → m Unit
  /-- A random number up to 256. -/
  draw : m Nat

/-- Why a command fails. -/
inductive CommandError
  | failedCircuits (failed total : Nat)
  | inputValue (value : String)
  | read (path : String)
  | parse (path : String)
  | compile (path : String)
  | evaluate (path : String)
  | write (path : String)
  | directory (path : String)
deriving DecidableEq

/-- The text of a command error. -/
def CommandError.message : CommandError → String
  | failedCircuits failed total => s!"{failed} of {total} circuits failed"
  | inputValue value => s!"Invalid input value `{value}`"
  | read path => s!"Failed to read circuit from {path}"
  | parse path => s!"Failed to parse {path}"
  | compile path => s!"Failed to compile {path}"
  | evaluate path => s!"Failed to evaluate {path}"
  | write path => s!"Failed to write {path}"
  | directory path => s!"{path} is a directory, expected a single circuit file"

/-! ## Values -/

/-- Reads input values. -/
def readValues : List String → Except CommandError (List Scalar)
  | [] => .ok []
  | v :: vs =>
    match Scalar.read .dec (trim v.toList) with
    | .error _ => .error (.inputValue v)
    | .ok a => do
      let rest ← readValues vs
      return a :: rest

/-- The options of the compiler, from the command line and the environment. -/
def compilerOptions (flags : CompilerFlags) (legacySet noZeroSet : Bool) : Options where
  wireOrder := if flags.legacyWireOrder || legacySet then .firstReadyInput else .allInputsReady
  zeroPropagation := !(flags.noZeroPropagation || noZeroSet)

/-! ## Circuits -/

/-- The files written for a circuit. -/
structure Artifacts where
  circuit : String
  constraints : String
  witness : String
deriving DecidableEq

/-- The artifacts of a circuit on the values of its primary inputs. -/
def artifacts (opts : Options) (values : List Scalar) (c : Circuit) :
    Except CircuitError Artifacts := do
  let (k, w) ← c.process opts values
  return ⟨String.ofList k.circuit.render, String.ofList k.system.render, String.ofList w.render⟩

/-- The files of the artifacts of the circuit at a path. -/
def Artifacts.files (a : Artifacts) (path : String) : List (String × String) :=
  [(path ++ "_out", a.circuit), (path ++ "_mat", a.constraints), (path ++ "_wit", a.witness)]

/-- Whether the name of a file marks a circuit. -/
def isCircuitName (name : String) : Bool :=
  name.length > 6 && name.endsWith ".arith"

/-- The path of a file in a directory. -/
def inDirectory (dir name : String) : String :=
  if dir.endsWith "/" then dir ++ name else dir ++ "/" ++ name

section Commands

variable {m : Type → Type} [Monad m] (host : Host m)

/-- The options of the compiler. -/
def hostOptions (flags : CompilerFlags) : m Options := do
  let legacySet ← host.isSet "QESA_LEGACY_WIRE_ORDER"
  let noZeroSet ← host.isSet "QESA_NO_ZERO_PROP"
  return compilerOptions flags legacySet noZeroSet

/-- Reads the circuit at a path. -/
def readCircuit (path : String) : m (Except CommandError Circuit) := do
  match ← host.read path with
  | none => return .error (.read path)
  | some text =>
    match Circuit.read text.toList with
    | .ok c => return .ok c
    | .error _ => return .error (.parse path)

/-- Writes files one after the other up to the first failure. -/
def writeFiles : List (String × String) → m (Except CommandError Unit)
  | [] => return .ok ()
  | (path, content) :: rest => do
    if ← host.write path content then writeFiles rest else return .error (.write path)

/-- Random values for `n` primary inputs, of which the first is one. -/
def drawValues : Nat → m (List Scalar)
  | 0 => return []
  | n + 1 => do
    let drawn ← (List.range n).mapM fun _ ↦ host.draw
    return 1 :: drawn.map Scalar.reduce

/-- Converts the circuit at a path. Without values, random ones are drawn. -/
def convertFile (opts : Options) (values : Option (List Scalar)) (seed : Option Nat)
    (path : String) : m (Except CommandError Unit) := do
  match ← readCircuit host path with
  | .error e => return .error e
  | .ok c =>
    let values ← match values with
      | some vs => pure vs
      | none => do
        host.seed seed
        drawValues host c.inputs.length
    match artifacts opts values c with
    | .error _ => return .error (.compile path)
    | .ok a => writeFiles host (a.files path)

/-- The paths of the circuits that a path stands for: the circuits of a directory by ascending
names, or the path itself. -/
def circuitPaths (path : String) : m (List String) := do
  if ← host.isDir path then
    let names ← host.list path
    return ((names.filter isCircuitName).mergeSort (· ≤ ·)).map (inDirectory path)
  else return [path]

/-- Converts circuits one after the other and counts the failures. -/
def convertAll (opts : Options) (values : Option (List Scalar)) (seed : Option Nat) :
    List String → m Nat
  | [] => return 0
  | path :: rest => do
    let result ← convertFile host opts values seed path
    let failed ← convertAll opts values seed rest
    return (if result.toBool then failed else failed + 1)

/-- The command `convert`. -/
def convert (path : String) (flags : CompilerFlags) (inputs : Option (List String))
    (seed : Option Nat) : m (Except CommandError String) := do
  let opts ← hostOptions host flags
  match inputs.mapM readValues with
  | .error e => return .error e
  | .ok values =>
    let paths ← circuitPaths host path
    let failed ← convertAll host opts values seed paths
    return if failed = 0 then .ok "" else .error (.failedCircuits failed paths.length)

/-- The command `witness`. -/
def witness (file : String) (values : List String) : m (Except CommandError String) := do
  if ← host.isDir file then return .error (.directory file)
  else
    match ← readCircuit host file with
    | .error e => return .error e
    | .ok c =>
      match readValues values with
      | .error e => return .error e
      | .ok vs =>
        match c.evaluate vs with
        | .error _ => return .error (.evaluate file)
        | .ok w =>
          match ← writeFiles host [(file ++ "_wit", String.ofList w.render)] with
          | .error e => return .error e
          | .ok () => return .ok ""

/-- The command `stat`. -/
def stat (file : String) (flags : CompilerFlags) (json : Bool) :
    m (Except CommandError String) := do
  let opts ← hostOptions host flags
  match ← readCircuit host file with
  | .error e => return .error e
  | .ok c =>
    match c.compile opts with
    | .error _ => return .error (.compile file)
    | .ok k =>
      let report := Report.ofCompiled k
      return .ok (if json then report.toJson ++ "\n" else report.render)

/-- How the program ended: its exit status and what it printed. -/
structure Outcome where
  status : Nat
  stdout : String
  stderr : String
deriving DecidableEq

/-- A short account of the commands. -/
def usage : String :=
  "Compiles arithmetic circuits into quadratic constraint systems\n\n" ++
  "Usage: ac2quad <COMMAND>\n\n" ++
  "Commands:\n" ++
  "  convert <PATH> [--inputs <VALUES>] [--seed <SEED>] [--legacy-wire-order]" ++
  " [--no-zero-propagation]\n" ++
  "  witness <FILE> [VALUES]...\n" ++
  "  stat <FILE> [--json] [--legacy-wire-order] [--no-zero-propagation]\n"

/-- The outcome of a command. -/
def report : Except CommandError String → Outcome
  | .ok text => ⟨0, text, ""⟩
  | .error e => ⟨1, "", "Error: " ++ e.message ++ "\n"⟩

/-- Runs a command. -/
def runCommand : Command → m Outcome
  | .convert path flags inputs seed => report <$> convert host path flags inputs seed
  | .witness file values => report <$> witness host file values
  | .stat file flags json => report <$> stat host file flags json
  | .version => return ⟨0, "ac2quad 0.1.0\n", ""⟩
  | .help => return ⟨0, usage, ""⟩

/-- Runs the program. -/
def run (args : List String) : m Outcome :=
  match readArgs args with
  | some command => runCommand host command
  | none => return ⟨2, "", usage⟩

end Commands

end Quadratize.Cli
