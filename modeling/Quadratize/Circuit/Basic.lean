import Quadratize.Opcode

/-!
# Arithmetic circuits

A circuit has primary inputs, gates in a significant order, and declared outputs. Gates are
referred to by their position in that order.
-/

namespace Quadratize

open Text

/-- A gate: what it computes, the wires that it reads and drives, and a note. -/
structure Gate where
  op : Opcode
  ins : List Wire
  outs : List Wire
  note : List Char := []
deriving DecidableEq

/-- A primary input and its note. -/
structure PrimaryInput where
  wire : Wire
  note : List Char := []
deriving DecidableEq

/-- An arithmetic circuit. -/
structure Circuit where
  inputs : List PrimaryInput
  gates : List Gate
  outputs : List Wire
deriving DecidableEq

/-- The numbers of wires with spaces between them. -/
def wireList (ws : List Wire) : List Char :=
  List.intercalate [' '] (ws.map Wire.render)

namespace Gate

/-- The gate as it is shown in messages, such as `add in <1 2> out <3>`. -/
def description (g : Gate) : String :=
  String.ofList (g.op.tag ++ " in <".toList ++ wireList g.ins ++ "> out <".toList ++
    wireList g.outs ++ ">".toList)

/-- Whether the gate has as many wires as its kind asks for. -/
def hasShape (g : Gate) : Bool :=
  g.op.inArity.admits g.ins.length && g.op.outArity.admits g.outs.length

/-- The wires of the form of a quadratic gate. -/
def formWires (g : Gate) : List Wire :=
  match g.op with
  | .quadratic f => f.wires
  | _ => []

/-- Renames every wire, those of a form too. -/
def rename (r : Wire → Wire) (g : Gate) : Gate :=
  { g with op := g.op.rename r, ins := g.ins.map r, outs := g.outs.map r }

/-- A gate that computes a form, reading exactly the wires of the form. -/
def withForm (g : Gate) (f : QuadForm) : Gate :=
  { g with op := .quadratic f, ins := f.wires }

end Gate

namespace Circuit

/-- The primary input wires. -/
def inputWires (c : Circuit) : List Wire :=
  c.inputs.map PrimaryInput.wire

/-- The first primary input, which carries the constant one. -/
def one? (c : Circuit) : Option Wire :=
  c.inputWires.head?

/-- Every wire of an input, an output or a gate, in ascending order. -/
def wires (c : Circuit) : List Wire :=
  Wire.ascending (c.inputWires ++ c.outputs ++ c.gates.flatMap fun g ↦ g.ins ++ g.outs)

/-- The number of distinct wires. -/
def numVariables (c : Circuit) : Nat :=
  c.wires.length

/-- The largest wire. -/
def maxWire? (c : Circuit) : Option Wire :=
  c.wires.getLast?

/-- Renames every wire. -/
def rename (r : Wire → Wire) (c : Circuit) : Circuit where
  inputs := c.inputs.map fun i ↦ { i with wire := r i.wire }
  gates := c.gates.map (Gate.rename r)
  outputs := c.outputs.map r

/-- The number of gates of each kind, by ascending names. -/
def gateCounts (c : Circuit) : List (String × Nat) :=
  (Opcode.names.map fun n ↦ (n, c.gates.countP (·.op.name == n))).filter (·.2 != 0)

end Circuit

/-! ## Producers and consumers -/

namespace Gate

/-- The positions of the gates that read a wire. -/
def consumers (gates : List Gate) (w : Wire) : List Nat :=
  (gates.zipIdx.filter fun (g, _) ↦ w ∈ g.ins).map (·.2)

/-- The position of the last gate that drives a wire. -/
def producer? (gates : List Gate) (w : Wire) : Option Nat :=
  (gates.zipIdx.reverse.find? fun (g, _) ↦ w ∈ g.outs).map (·.2)

end Gate

end Quadratize
