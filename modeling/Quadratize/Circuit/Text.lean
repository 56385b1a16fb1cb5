import Quadratize.Circuit.Line
import Quadratize.Circuit.Valid
import Quadratize.Text.Lines

/-!
# The text form of circuits

The text lists the inputs, the gates and the outputs of a circuit, one to a line. Notes are
comments; the comment of a quadratic gate is its formula.
-/

namespace Quadratize

open Text

/-! ## Writing -/

namespace Circuit

/-- The column of the comments. -/
def noteColumn : Nat := 40

/-- A line with its note in the column of the comments. -/
def noteLine (line note : List Char) : List Char :=
  if note.isEmpty then line ++ ['\n']
  else padRight noteColumn line ++ " # ".toList ++ note ++ ['\n']

/-- The line of a primary input. -/
def renderInput (i : PrimaryInput) : List Char :=
  noteLine ("input ".toList ++ i.wire.render) i.note

/-- A number of wires and the wires in brackets. -/
def renderWires (ws : List Wire) : List Char :=
  decimal ws.length ++ " <".toList ++ wireList ws ++ ['>']

/-- The comment of a gate. -/
def gateNote (g : Gate) : List Char :=
  match g.op with
  | .quadratic f => f.render
  | _ => g.note

/-- The line of a gate. -/
def renderGate (g : Gate) : List Char :=
  noteLine (g.op.tag ++ " in ".toList ++ renderWires g.ins ++ " out ".toList ++ renderWires g.outs)
    (gateNote g)

/-- The line of a declared output. -/
def renderOutput (w : Wire) : List Char :=
  "output ".toList ++ w.render ++ ['\n']

/-- The written form of a circuit. -/
def render (c : Circuit) : List Char :=
  "total ".toList ++ decimal c.numVariables ++ ['\n'] ++ c.inputs.flatMap renderInput ++
    c.gates.flatMap renderGate ++ c.outputs.flatMap renderOutput

end Circuit

/-! ## Reading -/

/-- The two wire lists of a gate. -/
inductive GateSide
  | input
  | output
deriving DecidableEq

/-- The name of a wire list. -/
def GateSide.name : GateSide → String
  | input => "input"
  | output => "output"

/-- What is wrong with a line. -/
inductive LineFault
  | grammar
  | wireRange (digits : List Char)
  | countRange (side : GateSide) (digits : List Char)
  | countMismatch (side : GateSide) (expected found : Nat)
  | opcode (cause : Opcode.ReadError)
deriving DecidableEq

/-- The text of a line fault. -/
def LineFault.message : LineFault → String
  | grammar => "syntax error"
  | wireRange digits => "wire id `" ++ String.ofList digits ++ "` is out of range"
  | countRange side digits =>
    side.name ++ " count `" ++ String.ofList digits ++ "` is out of range"
  | countMismatch side expected found =>
    s!"expected {expected} {side.name} wires, found {found}"
  | opcode cause => cause.message

/-- What a line adds to a circuit. -/
inductive Declaration
  | nothing
  | input (i : PrimaryInput)
  | output (w : Wire)
  | gate (g : Gate)
deriving DecidableEq

namespace Declaration

/-- Reads the number of a wire. -/
def readWire (digits : List Char) : Except LineFault Wire :=
  match Wire.read? digits with
  | some w => .ok w
  | none => .error (.wireRange digits)

/-- Reads a wire list and compares its length with the count in front of it. -/
def readWires (side : GateSide) (count : List Char) (wires : List (List Char)) :
    Except LineFault (List Wire) := do
  let ws ← wires.mapM readWire
  match readBelow? countLimit count with
  | none => throw (.countRange side count)
  | some n => if ws.length = n then return ws else throw (.countMismatch side n ws.length)

/-- The note that a gate keeps; that of a quadratic gate is its form. -/
def keptNote (op : Opcode) (note : List Char) : List Char :=
  if op.isQuadratic then [] else note

/-- The meaning of a statement with its note. -/
def ofStatement (note : List Char) : Statement → Except LineFault Declaration
  | .total _ => .ok nothing
  | .input w => do
    let w ← readWire w
    return input ⟨w, note⟩
  | .output w => do
    let w ← readWire w
    return output w
  | .gate kind inCount ins outCount outs => do
    let ins ← readWires .input inCount ins
    let outs ← readWires .output outCount outs
    match Opcode.read kind note with
    | .ok op => return gate ⟨op, ins, outs, keptNote op note⟩
    | .error e => throw (.opcode e)

/-- Reads a line. -/
def read (line : List Char) : Except LineFault Declaration :=
  match Line.read? line with
  | none => .error .grammar
  | some ⟨none, _⟩ => .ok nothing
  | some ⟨some s, note⟩ => ofStatement note s

/-- The primary input that is declared. -/
def input? : Declaration → Option PrimaryInput
  | input i => some i
  | _ => none

/-- The gate that is declared. -/
def gate? : Declaration → Option Gate
  | gate g => some g
  | _ => none

/-- The output that is declared. -/
def output? : Declaration → Option Wire
  | output w => some w
  | _ => none

end Declaration

/-- Why a text is no circuit. -/
inductive CircuitReadError
  | line (number : Nat) (fault : LineFault)
  | malformed (cause : Malformed)
deriving DecidableEq

/-- The text of a read error. -/
def CircuitReadError.message : CircuitReadError → String
  | line n fault => s!"line {n}: {fault.message}"
  | malformed cause => (CircuitError.malformed cause).message

namespace Circuit

/-- The circuit of a list of declarations. -/
def ofDeclarations (ds : List Declaration) : Circuit where
  inputs := ds.filterMap Declaration.input?
  gates := ds.filterMap Declaration.gate?
  outputs := ds.filterMap Declaration.output?

/-- Reads numbered lines one after the other. -/
def readLines : List (List Char × Nat) → Except CircuitReadError (List Declaration)
  | [] => .ok []
  | (line, n) :: rest => do
    let d ← (Declaration.read line).mapError (.line n)
    let ds ← readLines rest
    return d :: ds

/-- Reads a circuit and checks that it is valid. -/
def read (text : List Char) : Except CircuitReadError Circuit := do
  let ds ← readLines ((lines text).zipIdx 1)
  let c := ofDeclarations ds
  c.validate.mapError .malformed
  return c

end Circuit

end Quadratize
