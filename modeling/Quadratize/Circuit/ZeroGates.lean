import Quadratize.Circuit.DeadGates
import Quadratize.Circuit.Error
import Quadratize.Form.Simplify

/-!
# Zero gates

A quadratic gate whose form is zero drives the constant zero. Unless it drives a declared output
it is removed, and zero takes the place of its output in the forms of the gates that read it.
Sweeps in gate order are repeated until nothing changes.
-/

namespace Quadratize.Circuit

/-- Whether a gate has the zero form and drives no declared output. -/
def isZeroGate (outputs : List Wire) (g : Gate) : Bool :=
  match g.op with
  | .quadratic f => f.isZero && !g.outs.any (· ∈ outputs)
  | _ => false

/-- Puts zero in the place of a wire that a gate reads. -/
def readZero (w : Wire) (g : Gate) : Except CircuitError Gate :=
  match g.op with
  | .quadratic f => .ok (g.withForm (f.substituteZero w).simplify)
  | _ => .error (.violation g (.readsZero w))

/-- Puts zero in the place of a wire in every gate that read it at the start of the sweep. -/
def zeroWire (start : List Gate) (w : Wire) (gates : List Gate) : Except CircuitError (List Gate) :=
  (start.zip gates).mapM fun (old, g) ↦ if w ∈ old.ins then readZero w g else .ok g

/-- A sweep: the gates as they are now, and the positions of the removed ones. -/
structure ZeroSweep where
  gates : List Gate
  removed : List Nat
deriving DecidableEq

/-- Looks at the gate at a position. -/
def sweepZero (outputs : List Wire) (start : List Gate) (s : ZeroSweep) (p : Nat) :
    Except CircuitError ZeroSweep :=
  match s.gates[p]? with
  | none => .error (.missing p)
  | some g =>
    if isZeroGate outputs g then
      match g.outs.head? with
      | none => .ok { s with removed := p :: s.removed }
      | some w => do
        let gates ← zeroWire start w s.gates
        return ⟨gates, p :: s.removed⟩
    else .ok s

/-- The gates that a sweep leaves. -/
def ZeroSweep.kept (s : ZeroSweep) : List Gate :=
  (s.gates.zipIdx.filter fun (_, p) ↦ p ∉ s.removed).map (·.1)

/-- Repeats sweeps until nothing changes. -/
def withoutZeroGates (outputs : List Wire) (gates : List Gate) :
    Except CircuitError (List Gate × Sweeps) := do
  let s ← (List.range gates.length).foldlM (sweepZero outputs gates) ⟨gates, []⟩
  if _h : s.kept.length < gates.length then
    let (rest, t) ← withoutZeroGates outputs s.kept
    return (rest, ⟨t.removed + (gates.length - s.kept.length), t.rounds + 1⟩)
  else return (gates, ⟨0, 1⟩)
termination_by gates.length
decreasing_by exact _h

/-- Removes the zero gates. -/
def propagateZeros (c : Circuit) : Except CircuitError (Circuit × Sweeps) := do
  let (gates, s) ← withoutZeroGates c.outputs c.gates
  return ({ c with gates := gates }, s)

end Quadratize.Circuit
