import Quadratize.Form.Basic

/-!
# Simplification of quadratic forms

Products with a constant side are added up to one linear term. The sides of the other products
are made monic and put in order, and products with equal sides are added up. The result lists
the products in ascending order of their sides, then the linear term.
-/

namespace Quadratize

/-- Divides by the leading coefficient, which is the second result. -/
def Affine.monic (a : Affine Wire) : Affine Wire × Scalar :=
  match a.leading? with
  | none => (a, 1)
  | some c =>
    match c.inverse? with
    | some d => (a.scale d, c)
    | none => (a, 1)

namespace Product

/-- The affine sum that a product with a constant side stands for. -/
def asAffine? (p : Product) : Option (Affine Wire) :=
  match Affine.asConstant? p.rhs with
  | some c => some (p.lhs.scale c)
  | none =>
    match Affine.asConstant? p.lhs with
    | some c => some (p.rhs.scale c)
    | none => none

end Product

/-- A product of monic sides in ascending order, with a coefficient. -/
structure MonicProduct where
  lhs : Affine Wire
  rhs : Affine Wire
  coeff : Scalar
deriving DecidableEq

namespace MonicProduct

/-- Makes the sides of a product monic and puts them in order. -/
def ofProduct (p : Product) : MonicProduct :=
  let (lhs, c) := Affine.monic p.lhs
  let (rhs, d) := Affine.monic p.rhs
  if Sparse.compareTerms lhs.terms rhs.terms = .gt then ⟨rhs, lhs, c * d⟩ else ⟨lhs, rhs, c * d⟩

/-- Compares the sides. -/
def compare (p q : MonicProduct) : Ordering :=
  (Sparse.compareTerms p.lhs.terms q.lhs.terms).then (Sparse.compareTerms p.rhs.terms q.rhs.terms)

/-- Adds a product to an ascending list. -/
def insert (p : MonicProduct) : List MonicProduct → List MonicProduct
  | [] => [p]
  | q :: rest =>
    match p.compare q with
    | .lt => p :: q :: rest
    | .eq => { q with coeff := q.coeff + p.coeff } :: rest
    | .gt => q :: insert p rest

/-- The product with its coefficient on the left side. -/
def toProduct (p : MonicProduct) : Product :=
  ⟨p.lhs.scale p.coeff, p.rhs⟩

end MonicProduct

namespace QuadForm

/-- The sum of the products that have a constant side. -/
def linearPart (f : QuadForm) : Affine Wire :=
  (f.terms.filterMap Product.asAffine?).foldl (· + ·) 0

/-- The other products in ascending order of their sides. -/
def monicPart (f : QuadForm) : List MonicProduct :=
  (f.terms.filter (·.asAffine?.isNone)).foldl (fun ps p ↦ (MonicProduct.ofProduct p).insert ps) []

/-- Adds up like products and collects the linear part in the last term. -/
def simplify (f : QuadForm) : QuadForm :=
  ofProducts (f.monicPart.map MonicProduct.toProduct ++ [⟨f.linearPart, Affine.constant 1⟩])

end QuadForm

end Quadratize
