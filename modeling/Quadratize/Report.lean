import Quadratize.Compile
import Quadratize.Text.Rounding

/-!
# Reports on compiled circuits

A report counts gates, constraints and wires. It is shown as a tree or as a JSON object.
-/

namespace Quadratize

open Text

/-- The counts of a compiled circuit. -/
structure Report where
  gates : Nat
  gateCounts : List (String × Nat)
  constraints : Nat
  rows : Nat
  /-- The number of coefficients of all rows. -/
  nonzero : Nat
  /-- The number of distinct slots of all rows. -/
  slots : Nat
  wires : Nat
  inputs : Nat
  outputs : Nat
deriving DecidableEq

namespace Report

/-- The rows of a constraint system, pair by pair. -/
def systemRows (s : ConstraintSystem) : List Row :=
  s.constraints.flatten.flatMap fun p ↦ [p.a, p.b]

/-- Puts a slot into an ascending list, unless it is there already. -/
def insertSlot (i : Slot) : List Slot → List Slot
  | [] => [i]
  | j :: rest =>
    if i < j then i :: j :: rest
    else if j < i then j :: insertSlot i rest
    else j :: rest

/-- The distinct slots of rows. -/
def slotsOf (rows : List Row) : List Slot :=
  rows.foldl (fun acc r ↦ r.terms.foldl (fun acc t ↦ insertSlot t.1 acc) acc) []

/-- The report on a compiled circuit. -/
def ofCompiled (k : Compiled) : Report where
  gates := k.circuit.gates.length
  gateCounts := k.circuit.gateCounts
  constraints := k.system.constraints.length
  rows := k.system.numRows
  nonzero := ((systemRows k.system).flatMap Sparse.terms).length
  slots := (slotsOf (systemRows k.system)).length
  wires := k.system.numVariables
  inputs := k.circuit.inputs.length
  outputs := k.circuit.outputs.length

/-! ## The tree -/

/-- A number with groups of digits. -/
def count (n : Nat) : String :=
  String.ofList (grouped n)

/-- The lines of the gate counts; the last one closes the branch. -/
def kindLines : List (String × Nat) → String
  | [] => ""
  | [(kind, n)] => s!"│  └─ {kind}: {count n}\n"
  | (kind, n) :: rest => s!"│  ├─ {kind}: {count n}\n" ++ kindLines rest

/-- The report as a tree. -/
def render (r : Report) : String :=
  "Gates\n" ++
  s!"├─ Number of gates: {count r.gates}\n" ++
  kindLines r.gateCounts ++
  s!"└─ Outputs: {count r.outputs}\n" ++
  "\n" ++
  "Constraints\n" ++
  s!"├─ Constraints: {count r.constraints}\n" ++
  s!"├─ Row pairs: {count r.rows}\n" ++
  s!"├─ Non-zero coefficients: {count r.nonzero} " ++
    s!"({String.ofList (renderTenths r.nonzero r.rows)} per row pair)\n" ++
  s!"└─ Distinct value indices: {count r.slots}\n" ++
  "\n" ++
  "Witness\n" ++
  s!"├─ Length: {count r.wires}\n" ++
  s!"├─ Primary inputs: {count r.inputs}\n" ++
  s!"└─ Internal: {count (r.wires - r.inputs)}\n" ++
  "\n"

/-! ## The JSON object -/

/-- A member of a JSON object, without the comma behind it. -/
def member (indent key value : String) : String :=
  indent ++ "\"" ++ key ++ "\": " ++ value

/-- Members in braces, one to a line, the closing brace behind `indent`. -/
def braces (indent : String) (members : List String) : String :=
  if members.isEmpty then "\x7b\x7d"
  else "\x7b\n" ++ String.intercalate ",\n" members ++ "\n" ++ indent ++ "\x7d"

/-- The report as a JSON object. -/
def toJson (r : Report) : String :=
  let top (key : String) (n : Nat) : String := member "  " key (toString n)
  braces "" [
    top "n_gates" r.gates,
    member "  " "gate_counts"
      (braces "  " (r.gateCounts.map fun (kind, n) ↦ member "    " kind (toString n))),
    top "n_constraints" r.constraints,
    top "n_rows" r.rows,
    top "n_nonzero" r.nonzero,
    top "distinct_value_indices" r.slots,
    top "num_variables" r.wires,
    top "n_inputs" r.inputs,
    top "n_outputs" r.outputs]

end Report

end Quadratize
