import Quadratize.Circuit.Error

/-!
# The constant input comes first

The primary input that carries the constant one is either the first, marked by its note, or the
last. In the second case it becomes wire zero at the front, and every other primary input moves
up by one number.
-/

namespace Quadratize.Circuit

/-- The mark of the constant input. -/
def oneMark : List Char := "one-input".toList

/-- Renames by a list of pairs; a wire that is not listed keeps its name. -/
def renameBy (pairs : List (Wire × Wire)) (w : Wire) : Wire :=
  (pairs.lookup w).getD w

/-- The new name of a primary input. -/
def shiftInput (last w : Wire) : Except Malformed Wire :=
  if w = last then .ok Wire.first
  else
    match Wire.ofNat? (w.id + 1) with
    | some v => .ok v
    | none => .error (.unshiftable w)

/-- The new names of primary inputs, none of which may be the name of another wire. -/
def shiftInputs (others : List Wire) (last : Wire) : List Wire → Except Malformed (List (Wire × Wire))
  | [] => .ok []
  | w :: ws => do
    let v ← shiftInput last w
    if v ∈ others then throw (.collision w v)
    let rest ← shiftInputs others last ws
    return (w, v) :: rest

/-- The wires that are no primary inputs. -/
def internalWires (c : Circuit) : List Wire :=
  c.wires.filter (· ∉ c.inputWires)

/-- Moves the last element of a list to the front. -/
def lastToFront {α : Type} (xs : List α) : List α :=
  xs.getLast?.toList ++ xs.dropLast

/-- Moves the constant input to the front. The second result tells whether the circuit changed. -/
def normalizeInputs (c : Circuit) : Except Malformed (Circuit × Bool) :=
  match c.inputs.head?, c.inputs.getLast? with
  | some first, some last =>
    if Text.occursIn oneMark first.note then .ok (c, false)
    else do
      let pairs ← shiftInputs c.internalWires last.wire c.inputWires
      let renamed := c.rename (renameBy pairs)
      return ({ renamed with inputs := lastToFront renamed.inputs }, true)
  | _, _ => .error .noInputs

end Quadratize.Circuit
