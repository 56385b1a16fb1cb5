import Quadratize.Circuit.Basic

/-!
# Dead gates

A gate is dead if none of its outputs is declared or read. Removing it ends its own uses of
wires, so that further gates may die. Gates are swept from the last to the first, and sweeps are
repeated until nothing changes.
-/

namespace Quadratize

/-- What repeated sweeps did: the number of removed gates, and the number of sweeps with the last
one, which removed nothing. -/
structure Sweeps where
  removed : Nat
  rounds : Nat
deriving DecidableEq

namespace Circuit

/-- Ends one use of each of the wires. -/
def endUses (uses ws : List Wire) : List Wire :=
  ws.foldl List.erase uses

/-- Sweeps gates from the last to the first. A use of a wire is an occurrence in `uses`. The result
holds the gates that stay, and the uses that are left. -/
def sweepDead (uses : List Wire) : List Gate → List Gate × List Wire
  | [] => ([], uses)
  | g :: rest =>
    let (kept, uses) := sweepDead uses rest
    if g.outs.any (· ∈ uses) then (g :: kept, uses) else (kept, endUses uses g.ins)

/-- Every use of a wire: by a declared output, or as an input of a gate. -/
def allUses (outputs : List Wire) (gates : List Gate) : List Wire :=
  outputs ++ gates.flatMap Gate.ins

/-- The gates that stay when sweeps are repeated until nothing changes. -/
def liveGates (outputs : List Wire) (gates : List Gate) : List Gate × Sweeps :=
  let kept := (sweepDead (allUses outputs gates) gates).1
  if _h : kept.length < gates.length then
    let (live, s) := liveGates outputs kept
    (live, ⟨s.removed + (gates.length - kept.length), s.rounds + 1⟩)
  else (gates, ⟨0, 1⟩)
termination_by gates.length
decreasing_by exact _h

/-- Removes the dead gates. -/
def removeDeadGates (c : Circuit) : Circuit × Sweeps :=
  let (live, s) := liveGates c.outputs c.gates
  ({ c with gates := live }, s)

end Circuit

end Quadratize
