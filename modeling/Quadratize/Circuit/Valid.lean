import Quadratize.Circuit.Error

/-!
# Validity of circuits

In a valid circuit every gate has the wires of its kind, a form mentions only inputs of its gate,
no wire is assigned twice, and every wire that is read or declared as an output is assigned.
-/

namespace Quadratize

namespace Circuit

/-- Adds wires to the assigned ones, failing with `err` at a wire that is assigned already. -/
def assign (err : Wire → Malformed) : List Wire → List Wire → Except Malformed (List Wire)
  | assigned, [] => .ok assigned
  | assigned, w :: ws =>
    if w ∈ assigned then .error (err w) else assign err (w :: assigned) ws

/-- Checks a gate by itself. -/
def checkGate (g : Gate) : Except Malformed Unit :=
  if g.hasShape then
    match g.formWires.find? (· ∉ g.ins) with
    | some w => .error (.formulaWire g w)
    | none => .ok ()
  else .error (.shape g)

/-- Checks the gates and adds their outputs to the assigned wires. -/
def checkGates : List Wire → List Gate → Except Malformed (List Wire)
  | assigned, [] => .ok assigned
  | assigned, g :: rest => do
    checkGate g
    let assigned ← assign (.reassigned · g) assigned g.outs
    checkGates assigned rest

/-- The first wire that a gate reads without its being assigned. -/
def unassignedRead? (assigned : List Wire) (gates : List Gate) : Option Malformed :=
  gates.findSome? fun g ↦ (g.ins.find? (· ∉ assigned)).map (.unassigned g)

/-- Checks that a circuit is valid. -/
def validate (c : Circuit) : Except Malformed Unit := do
  let assigned ← assign .repeatedInput [] c.inputWires
  let assigned ← checkGates assigned c.gates
  match unassignedRead? assigned c.gates with
  | some e => throw e
  | none =>
    match c.outputs.find? (· ∉ assigned) with
    | some w => throw (.unassignedOutput w)
    | none => return ()

end Circuit

end Quadratize
