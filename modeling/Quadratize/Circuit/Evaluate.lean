import Quadratize.Circuit.Error
import Quadratize.Witness

/-!
# Evaluation of circuits

The gates are evaluated in order, starting from the values of the primary inputs. The witness
lists the values by the numbers of the wires; a number without a value has zero.
-/

namespace Quadratize

/-- The values of wires, the latest assignment first. -/
abbrev Values := List (Wire × Scalar)

namespace Values

/-- The value of a wire that has been assigned. -/
def read (vs : Values) (w : Wire) : Except CircuitError Scalar :=
  match vs.lookup w with
  | some a => .ok a
  | none => .error (.malformed (.readEarly w))

/-- Assigns values to wires. -/
def assign (vs : Values) (new : List (Wire × Scalar)) : Values :=
  new.foldl (fun vs p ↦ p :: vs) vs

/-- The values of the wires with the numbers below `n`. -/
def toWitness (vs : Values) (n : Nat) : Witness :=
  ⟨(List.range n).map fun i ↦ ((vs.find? fun p ↦ p.1.id == i).map (·.2)).getD 0⟩

end Values

namespace Gate

/-- The value of bits that start at the given place. -/
def packValue (vs : Values) : Nat → List Wire → Except CircuitError Scalar
  | _, [] => .ok 0
  | i, w :: ws => do
    let a ← vs.read w
    let b ← packValue vs (i + 1) ws
    return a * Scalar.twoPow i + b

/-- The inverse and the mark of a value that is not zero, two zeros otherwise. -/
def zeroTest (a : Scalar) : Scalar × Scalar :=
  match a.inverse? with
  | some b => (b, 1)
  | none => (0, 0)

/-- The bits of a value on the given wires, the lowest first. -/
def splitValues (a : Scalar) (bits : List Wire) : List (Wire × Scalar) :=
  bits.zipIdx.map fun (w, i) ↦ (w, Scalar.ofBool (a.bit i))

/-- The values of the outputs of a gate. -/
def outputValues (vs : Values) (g : Gate) : Except CircuitError (List (Wire × Scalar)) :=
  match g.op, g.ins, g.outs with
  | .quadratic f, _, [z] => do
    let a ← f.tryEval vs.read
    return [(z, a)]
  | .split, [x], bits => do
    let a ← vs.read x
    return splitValues a bits
  | .pack, bits, [z] => do
    let a ← packValue vs 0 bits
    return [(z, a)]
  | .zerop, [x], [m, y] => do
    let a ← vs.read x
    return [(m, (zeroTest a).1), (y, (zeroTest a).2)]
  | .xor, [x, y], [z] => do
    let a ← vs.read x
    let b ← vs.read y
    return [(z, a + b - (a * b + a * b))]
  | .add, _, _ | .sub, _, _ | .constMul _, _, _ | .mul, _, _ => .error (.violation g .notEvaluable)
  | _, _, _ => .error (.misshapen g)

end Gate

namespace Circuit

/-- Evaluates gates in order. -/
def evaluateGates : Values → List Gate → Except CircuitError Values
  | vs, [] => .ok vs
  | vs, g :: rest => do
    let new ← g.outputValues vs
    evaluateGates (vs.assign new) rest

/-- Checks that there is a value for each primary input and that the first is one. -/
def checkInputs (c : Circuit) (values : List Scalar) : Except CircuitError Unit :=
  if values.length = c.inputs.length then
    match values.head? with
    | some a => if a = 1 then .ok () else .error (.constantInput a)
    | none => .ok ()
  else .error (.inputCount c.inputs.length values.length)

/-- Evaluates a circuit on the values of its primary inputs. -/
def evaluate (c : Circuit) (values : List Scalar) : Except CircuitError Witness := do
  checkInputs c values
  let vs ← evaluateGates (Values.assign [] (c.inputWires.zip values)) c.gates
  return vs.toWitness (c.maxWire?.elim 0 (·.id + 1))

end Circuit

end Quadratize
