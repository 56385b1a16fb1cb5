import Quadratize.Circuit.Error
import Quadratize.Constraint.Basic

/-!
# Constraints of a circuit

Quadratic gates, splits and zero tests give constraints on a witness that holds the value of a
wire in the slot with the number of the wire. The constant term of an affine sum goes to slot
zero.
-/

namespace Quadratize

/-- The slot of a wire, or slot zero for a constant. -/
def slotOf : Option Wire → Slot
  | none => ⟨0, by decide⟩
  | some w => ⟨w.id, Nat.lt_succ_of_lt w.isLt⟩

/-- An affine sum as a row. -/
def Affine.toRow (a : Affine Wire) : Row :=
  a.map slotOf

/-- A product as a row pair. -/
def Product.toRowPair (p : Product) : RowPair :=
  ⟨Affine.toRow p.lhs, Affine.toRow p.rhs⟩

namespace Gate

/-- The weighted sum of bits minus the value that they make up. -/
def splitSum (x : Wire) (bits : List Wire) : Affine Wire :=
  bits.zipIdx.foldl (fun a (w, i) ↦ a.addTerm (some w) (Scalar.twoPow i)) (Affine.monomial x (-1))

/-- A wire is zero or one: `b·(b - 1)`. -/
def bitProduct (b : Wire) : Product :=
  ⟨Affine.var b, (Affine.var b).addTerm none (-1)⟩

/-- The constraints of a gate as sums of products. Kinds that carry no constraints are skipped. -/
def equations (g : Gate) : Except CircuitError (List (List Product)) :=
  match g.op, g.ins, g.outs with
  | .quadratic f, _, [z] => .ok [⟨Affine.constant (-1), Affine.var z⟩ :: f.terms]
  | .split, [x], bits =>
    .ok ([⟨Affine.constant 1, splitSum x bits⟩] :: bits.map ([bitProduct ·]))
  | .zerop, [x], [m, y] => .ok
    [[⟨Affine.var x, Affine.var m⟩, ⟨Affine.constant (-1), Affine.var y⟩],
      [⟨(Affine.constant 1).addTerm (some y) (-1), Affine.var x⟩]]
  | .quadratic _, _, _ | .split, _, _ | .zerop, _, _ => .error (.misshapen g)
  | .add, _, _ | .sub, _, _ | .constMul _, _, _ | .mul, _, _ | .xor, _, _ | .pack, _, _ => .ok []

/-- The constraints of a gate. -/
def constraints (g : Gate) : Except CircuitError (List Constraint) :=
  g.equations.map fun pss ↦ pss.map fun ps ↦ ps.map Product.toRowPair

end Gate

/-- The constraints of all gates in order. -/
def Circuit.emit (c : Circuit) : Except CircuitError ConstraintSystem := do
  let constraints ← c.gates.mapM Gate.constraints
  return ⟨c.numVariables, constraints.flatten⟩

end Quadratize
