import Quadratize.Circuit.Error

/-!
# Layers

Gates are put into evaluation order layer by layer: a layer holds the gates whose inputs are
primary inputs or outputs of earlier layers, in the order in which they stood.
-/

namespace Quadratize.Circuit

/-- Whether all inputs of a gate are ready. -/
def isReady (ready : List Wire) (g : Gate) : Bool :=
  g.ins.all (· ∈ ready)

/-- The gates that are ready. -/
def readyGates (ready : List Wire) (gates : List Gate) : List Gate :=
  gates.filter (isReady ready)

/-- The gates that are not ready. -/
def waitingGates (ready : List Wire) (gates : List Gate) : List Gate :=
  gates.filter (!isReady ready ·)

/-- The gates in layers, with the given wires ready at the start. -/
def layered (ready : List Wire) (gates : List Gate) : Except Malformed (List Gate) :=
  match gates with
  | [] => .ok []
  | g :: rest =>
    let layer := readyGates ready (g :: rest)
    let later := waitingGates ready (g :: rest)
    if _h : later.length < (g :: rest).length then do
      let tail ← layered (ready ++ layer.flatMap Gate.outs) later
      return layer ++ tail
    else .error (.stuck g)
termination_by gates.length
decreasing_by exact _h

/-- Puts the gates into evaluation order and the declared outputs into ascending order. -/
def sortGates (c : Circuit) : Except Malformed Circuit := do
  let gates ← layered c.inputWires c.gates
  return { c with gates := gates, outputs := c.outputs.mergeSort fun v w ↦ v.id ≤ w.id }

/-- Keeps the gates at the given positions, in that order and each of them once. -/
def reorder (order : List Nat) (c : Circuit) : Circuit :=
  { c with gates := order.eraseDups.filterMap (c.gates[·]?) }

end Quadratize.Circuit
