import Quadratize.Sparse.Basic

/-!
# Affine sums

An affine sum is a sparse sum whose missing key stands for the constant one. The constant term
comes first.
-/

namespace Quadratize

/-- A sum of variables and a constant. -/
abbrev Affine (κ : Type) [Key κ] := Sparse (Option κ)

namespace Affine

variable {κ ι : Type} [Key κ] [Key ι]

/-- A constant sum. -/
def constant (c : Scalar) : Affine κ :=
  Sparse.single none c

/-- The sum `c·k`. -/
def monomial (k : κ) (c : Scalar) : Affine κ :=
  Sparse.single (some k) c

/-- A variable by itself. -/
def var (k : κ) : Affine κ :=
  monomial k 1

/-- The variables of the sum in ascending order. -/
def vars (a : Affine κ) : List κ :=
  a.terms.filterMap (·.1)

/-- The constant term. -/
def constantTerm (a : Affine κ) : Scalar :=
  a.coeff none

/-- The value of a sum without variables. -/
def asConstant? (a : Affine κ) : Option Scalar :=
  if (vars a).isEmpty then some a.constantTerm else none

/-- Renames the variables, adding up the terms whose variables become equal. -/
def rename (f : κ → ι) (a : Affine κ) : Affine ι :=
  a.map (Option.map f)

/-- Extends values of variables to keys: the missing key has the value one. -/
def atKey (r : κ → Scalar) : Option κ → Scalar
  | none => 1
  | some k => r k

/-- The value of the sum when each variable has a value. -/
def eval (r : κ → Scalar) (a : Affine κ) : Scalar :=
  Sparse.eval (atKey r) a

/-- Extends partial values of variables to keys. -/
def tryAtKey {ε : Type} (r : κ → Except ε Scalar) : Option κ → Except ε Scalar
  | none => .ok 1
  | some k => r k

/-- The value of the sum, or the failure at its first variable without a value. -/
def tryEval {ε : Type} (r : κ → Except ε Scalar) (a : Affine κ) : Except ε Scalar :=
  Sparse.tryEval (tryAtKey r) a

end Affine

end Quadratize
