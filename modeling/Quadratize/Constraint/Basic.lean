import Quadratize.Sparse.Basic

/-!
# Quadratic constraints

A constraint asks that a sum of products of rows vanishes at a witness. A row is a sparse sum over
the slots of the witness; slot zero holds the constant one.
-/

namespace Quadratize

/-- The number of slots that an index of 32 bits can name. -/
abbrev slotLimit : Nat := 4294967296

/-- The index of a slot of a witness. -/
abbrev Slot := Fin slotLimit

/-- A linear form over the slots. -/
abbrev Row := Sparse Slot

/-- The product of two rows. -/
structure RowPair where
  a : Row
  b : Row
deriving DecidableEq

/-- A constraint: the sum of its row pairs is to vanish. -/
abbrev Constraint := List RowPair

/-- Constraints over a witness of a given length. -/
structure ConstraintSystem where
  numVariables : Nat
  constraints : List Constraint
deriving DecidableEq

/-- One of the two rows of a pair. -/
inductive RowSide
  | a
  | b
deriving DecidableEq

/-- The name of a row of a pair. -/
def RowSide.name : RowSide → String
  | a => "a"
  | b => "b"

/-- What is wrong with the shape of a constraint system. -/
inductive SystemError
  | emptyConstraint (constraint : Nat)
  | indexOutOfRange (constraint row : Nat) (side : RowSide) (index numVariables : Nat)
deriving DecidableEq

/-- The text of a system error. -/
def SystemError.message : SystemError → String
  | emptyConstraint i => s!"constraint #{i} has no rows"
  | indexOutOfRange i j side index n =>
    s!"constraint #{i} row #{j} refers to out-of-range value index in its {side.name} operand " ++
      s!"(index {index} >= num variables {n})"

namespace ConstraintSystem

/-- The number of row pairs of all constraints. -/
def numRows (s : ConstraintSystem) : Nat :=
  s.constraints.flatten.length

/-- The first slot of a row at or above the limit. -/
def highSlot? (limit : Nat) (row : Row) : Option Slot :=
  (row.terms.find? fun t ↦ decide (limit ≤ t.1.val)).map (·.1)

/-- The fault of a row pair, the first row before the second. -/
def pairFault? (limit i j : Nat) (p : RowPair) : Option SystemError :=
  match highSlot? limit p.a with
  | some slot => some (.indexOutOfRange i j .a slot limit)
  | none => (highSlot? limit p.b).map fun slot ↦ .indexOutOfRange i j .b slot limit

/-- The fault of a constraint. -/
def constraintFault? (limit i : Nat) (c : Constraint) : Option SystemError :=
  if c.isEmpty then some (.emptyConstraint i)
  else c.zipIdx.findSome? fun (p, j) ↦ pairFault? limit i j p

/-- The first fault of the system. -/
def fault? (s : ConstraintSystem) : Option SystemError :=
  s.constraints.zipIdx.findSome? fun (c, i) ↦ constraintFault? s.numVariables i c

/-- Checks that every constraint has a row and that every row stays within the witness. -/
def validate (s : ConstraintSystem) : Except SystemError Unit :=
  match s.fault? with
  | some e => .error e
  | none => .ok ()

end ConstraintSystem

end Quadratize
