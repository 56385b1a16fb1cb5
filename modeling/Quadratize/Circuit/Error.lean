import Quadratize.Circuit.Basic

/-!
# What can be wrong with a circuit
-/

namespace Quadratize

/-- Why a circuit is malformed. -/
inductive Malformed
  | repeatedInput (w : Wire)
  | shape (g : Gate)
  | formulaWire (g : Gate) (w : Wire)
  | reassigned (w : Wire) (g : Gate)
  | unassigned (g : Gate) (w : Wire)
  | unassignedOutput (w : Wire)
  | noInputs
  | unshiftable (w : Wire)
  | collision (w renamed : Wire)
  | exhausted
  | unreachable (g : Gate)
  | neverAssigned (w : Wire)
  | selfDependent (g : Gate)
  | stuck (g : Gate)
  | readEarly (w : Wire)
deriving DecidableEq

/-- The text of a malformation. -/
def Malformed.message : Malformed → String
  | repeatedInput w => s!"wire {w} is declared as primary input twice"
  | shape g =>
    s!"gate `{g.description}` expects {g.op.inArity.message} inputs and " ++
      s!"{g.op.outArity.message} outputs"
  | formulaWire g w => s!"formula of gate `{g.description}` refers to wire {w} which is not an input"
  | reassigned w g => s!"wire {w} is assigned more than once (gate `{g.description}`)"
  | unassigned g w => s!"gate `{g.description}` consumes wire {w} which is never assigned"
  | unassignedOutput w => s!"declared output {w} is never assigned"
  | noInputs => "circuit has no primary inputs"
  | unshiftable w => s!"input wire {w} cannot be shifted"
  | collision w renamed => s!"renumbering input {w} to {renamed} collides with an internal wire"
  | exhausted => "wire ids exhausted while inserting padding gates"
  | unreachable g => s!"gate `{g.description}` is not reachable from the primary inputs"
  | neverAssigned w => s!"wire {w} is never assigned"
  | selfDependent g => s!"gate `{g.description}` depends on itself"
  | stuck g => s!"gate `{g.description}` waits for a wire that is never produced"
  | readEarly w => s!"wire {w} is read before it is assigned"

/-- What a pass cannot do with a gate. -/
inductive Violation
  | notEvaluable
  | notAffine
  | readsZero (w : Wire)
deriving DecidableEq

/-- The text of a violation. -/
def Violation.message : Violation → String
  | notEvaluable => "gate kind cannot be evaluated"
  | notAffine => "not an affine gate"
  | readsZero w => s!"consumes wire {w} which is constantly zero"

/-- Why a circuit cannot be compiled or evaluated. -/
inductive CircuitError
  | malformed (cause : Malformed)
  | violation (gate : Gate) (reason : Violation)
  | inputCount (expected actual : Nat)
  | constantInput (value : Scalar)
  /-- A gate without the wires of its kind, which no valid circuit holds. -/
  | misshapen (gate : Gate)
  /-- A position that is looked up, and at which there is no gate or no expansion yet. -/
  | missing (position : Nat)
deriving DecidableEq

/-- The text of a circuit error. -/
def CircuitError.message : CircuitError → String
  | malformed cause => s!"malformed circuit: {cause.message}"
  | violation g reason =>
    s!"internal invariant violated at gate `{g.description}`: {reason.message}"
  | inputCount expected actual => s!"expected {expected} primary input values, got {actual}"
  | constantInput value => s!"the first primary input value must be 1, got {value}"
  | misshapen g => s!"gate `{g.description}` does not have the wires of its kind"
  | missing p => s!"there is nothing at position {p}"

end Quadratize
