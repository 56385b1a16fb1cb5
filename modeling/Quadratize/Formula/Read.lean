import Quadratize.Form.Basic
import Quadratize.Formula.Expr
import Quadratize.Text.Quoted

/-!
# Formulas as quadratic forms

An expression is lowered to a polynomial of degree at most two: products of affine sums and a
linear part.
-/

namespace Quadratize

open Text

/-- What is wrong with a formula. -/
inductive FormulaFault
  | grammar
  | notQuadratic
  | wireRange (digits : List Char)
deriving DecidableEq

/-- The text of a formula fault. -/
def FormulaFault.message : FormulaFault → String
  | grammar => "syntax error"
  | notQuadratic => "formula is not quadratic"
  | wireRange digits => "wire id " ++ String.ofList digits ++ " out of range"

/-- A formula that cannot be read. -/
structure FormulaError where
  formula : List Char
  fault : FormulaFault
deriving DecidableEq

/-- The text of a formula error. -/
def FormulaError.message (e : FormulaError) : String :=
  "invalid formula " ++ String.ofList (quoted e.formula) ++ ": " ++ e.fault.message

namespace Formula

/-- A polynomial of degree at most two. -/
structure Poly where
  products : List Product
  linear : Affine Wire
deriving DecidableEq

namespace Poly

/-- An affine sum as a polynomial. -/
def ofAffine (a : Affine Wire) : Poly :=
  ⟨[], a⟩

/-- The affine sum of a polynomial without products. -/
def asAffine? (p : Poly) : Option (Affine Wire) :=
  if p.products.isEmpty then some p.linear else none

/-- The value of a constant polynomial. -/
def asConstant? (p : Poly) : Option Scalar :=
  p.asAffine?.bind Affine.asConstant?

/-- Adds two polynomials. -/
def add (p q : Poly) : Poly :=
  ⟨p.products ++ q.products, p.linear + q.linear⟩

/-- Negates the left sides and the linear part. -/
def neg (p : Poly) : Poly :=
  ⟨p.products.map fun t ↦ ⟨-t.lhs, t.rhs⟩, -p.linear⟩

/-- Multiplies the left sides and the linear part. -/
def scale (p : Poly) (c : Scalar) : Poly :=
  ⟨p.products.map fun t ↦ ⟨t.lhs.scale c, t.rhs⟩, p.linear.scale c⟩

/-- Multiplies two polynomials if one is constant or both are affine. -/
def mul? (p q : Poly) : Option Poly :=
  match q.asConstant?, p.asConstant? with
  | some c, _ => some (p.scale c)
  | none, some c => some (q.scale c)
  | none, none =>
    match p.asAffine?, q.asAffine? with
    | some a, some b => some ⟨[⟨a, b⟩], 0⟩
    | _, _ => none

/-- The polynomial as a form, its linear part last. -/
def toForm (p : Poly) : QuadForm :=
  QuadForm.ofProducts (p.products ++ [⟨p.linear, Affine.constant 1⟩])

/-- Lowers an expression. -/
def ofExpr : Expr → Except FormulaFault Poly
  | .number digits =>
    .ok (ofAffine (Affine.constant (Scalar.reduce ((readNumeral? 10 digits).getD 0))))
  | .wire digits =>
    match Wire.read? digits with
    | some w => .ok (ofAffine (Affine.var w))
    | none => .error (.wireRange digits)
  | .neg e => do
    let p ← ofExpr e
    return p.neg
  | .add a b => do
    let p ← ofExpr a
    let q ← ofExpr b
    return p.add q
  | .sub a b => do
    let p ← ofExpr a
    let q ← ofExpr b
    return p.add q.neg
  | .mul a b => do
    let p ← ofExpr a
    let q ← ofExpr b
    match p.mul? q with
    | some r => return r
    | none => throw .notQuadratic

end Poly

end Formula

/-- Reads a formula such as `(5 + _1_) * _2_ - 3*_4_`. -/
def QuadForm.read (text : List Char) : Except FormulaError QuadForm :=
  match Formula.Expr.read? text with
  | none => .error ⟨text, .grammar⟩
  | some e =>
    match Formula.Poly.ofExpr e with
    | .error fault => .error ⟨text, fault⟩
    | .ok p => .ok p.toForm

end Quadratize
