import Quadratize.Constraint.Basic
import Quadratize.Witness

/-!
# Verification of a witness

A witness satisfies a constraint system if it is long enough, holds one in its first slot and
makes every constraint vanish.
-/

namespace Quadratize

/-- Why a witness does not satisfy a constraint system. -/
inductive VerifyError
  | tooShort (expected actual : Nat)
  | constantNotOne (value : Scalar)
  | indexOutOfRange (index size : Nat)
  | unsatisfied (constraint : Nat) (value : Scalar)
deriving DecidableEq

/-- The text of a verification error. -/
def VerifyError.message : VerifyError → String
  | tooShort expected actual =>
    s!"the witness is too short. Expected at least: {expected}, Actual: {actual}"
  | constantNotOne value => s!"the constant slot must hold 1, got: {value}"
  | indexOutOfRange index size =>
    s!"row refers to value index {index} outside the witness of length {size}"
  | unsatisfied i value =>
    s!"constraint #{i} (matrix {i + 1}) evaluates to {value} instead of 0"

namespace Witness

/-- The value of a slot, or the error that there is none. -/
def slot (w : Witness) (i : Slot) : Except VerifyError Scalar :=
  match w.get? i.val with
  | some a => .ok a
  | none => .error (.indexOutOfRange i.val w.size)

/-- The value of a row. -/
def row (w : Witness) (r : Row) : Except VerifyError Scalar :=
  r.tryEval w.slot

/-- The value of a constraint, which is zero if the constraint holds. -/
def constraint (w : Witness) : Constraint → Except VerifyError Scalar
  | [] => .ok 0
  | p :: rest => do
    let a ← w.row p.a
    let b ← w.row p.b
    let sum ← w.constraint rest
    return a * b + sum

end Witness

namespace ConstraintSystem

/-- Checks that the constraints numbered from `i` on vanish. -/
def checkFrom (w : Witness) : Nat → List Constraint → Except VerifyError Unit
  | _, [] => .ok ()
  | i, c :: rest => do
    let value ← w.constraint c
    if value = 0 then checkFrom w (i + 1) rest else .error (.unsatisfied i value)

/-- Checks the constant slot, if there is one. -/
def checkConstant (w : Witness) : Except VerifyError Unit :=
  match w.get? 0 with
  | some a => if a = 1 then .ok () else .error (.constantNotOne a)
  | none => .ok ()

/-- Checks that a witness satisfies the system. -/
def verify (s : ConstraintSystem) (w : Witness) : Except VerifyError Unit := do
  if w.size < s.numVariables then .error (.tooShort s.numVariables w.size)
  else
    checkConstant w
    checkFrom w 0 s.constraints

end ConstraintSystem

end Quadratize
