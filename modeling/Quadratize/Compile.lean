import Quadratize.Circuit.DeadGates
import Quadratize.Circuit.Emit
import Quadratize.Circuit.Evaluate
import Quadratize.Circuit.Inputs
import Quadratize.Circuit.Layers
import Quadratize.Circuit.Numbering
import Quadratize.Circuit.Padding
import Quadratize.Circuit.Synthesis
import Quadratize.Circuit.Valid
import Quadratize.Circuit.ZeroGates

/-!
# Compilation

A circuit is brought into canonical form: only quadratic gates, splits and zero tests in
evaluation order, wires numbered without gaps, the constant one on wire zero. The canonical
circuit gives a constraint system and, for values of the primary inputs, a witness.
-/

namespace Quadratize

/-- How circuits are compiled. -/
structure Options where
  wireOrder : WireOrder := .allInputsReady
  zeroPropagation : Bool := true
deriving DecidableEq

/-- A canonical circuit and its constraints. -/
structure Compiled where
  circuit : Circuit
  system : ConstraintSystem
deriving DecidableEq

namespace Circuit

/-- A step that can only fail on a malformed circuit. -/
def lift {α : Type} (x : Except Malformed α) : Except CircuitError α :=
  x.mapError .malformed

/-- Removes zero gates if the options say so. -/
def zeroStep (opts : Options) (c : Circuit) : Except CircuitError Circuit :=
  if opts.zeroPropagation then c.propagateZeros.map (·.1) else .ok c

/-- Brings a circuit into canonical form. -/
def canonical (opts : Options) (c : Circuit) : Except CircuitError Circuit := do
  lift c.validate
  let (c, _) ← lift c.normalizeInputs
  let (c, _) ← lift c.removeDeadGates.1.insertPadding
  let (c, _) ← lift (c.renumber opts.wireOrder)
  let (c, _) ← c.synthesize
  let c ← c.zeroStep opts
  let (c, _) ← lift (c.removeDeadGates.1.renumber opts.wireOrder)
  lift c.sortGates

/-- Compiles a circuit. -/
def compile (opts : Options) (c : Circuit) : Except CircuitError Compiled := do
  let k ← c.canonical opts
  let s ← k.emit
  return ⟨k, s⟩

/-- Compiles a circuit and evaluates it. -/
def process (opts : Options) (values : List Scalar) (c : Circuit) :
    Except CircuitError (Compiled × Witness) := do
  let k ← c.compile opts
  let w ← k.circuit.evaluate values
  return (k, w)

end Circuit

end Quadratize
