import Quadratize.Affine
import Quadratize.Wire

/-!
# Quadratic forms

A quadratic form is a sum of products of two affine sums of wires. A linear contribution is a
product with the constant one on the right.
-/

namespace Quadratize

/-- A product of two affine sums of wires. -/
structure Product where
  lhs : Affine Wire
  rhs : Affine Wire
deriving DecidableEq

namespace Product

/-- Whether a side is zero. -/
def isZero (p : Product) : Bool :=
  p.lhs.isZero || p.rhs.isZero

/-- The wires of both sides. -/
def wires (p : Product) : List Wire :=
  Affine.vars p.lhs ++ Affine.vars p.rhs

/-- Renames the wires of both sides. -/
def rename (f : Wire → Wire) (p : Product) : Product :=
  ⟨Affine.rename f p.lhs, Affine.rename f p.rhs⟩

/-- Leaves a wire out of both sides. -/
def erase (w : Wire) (p : Product) : Product :=
  ⟨p.lhs.erase (some w), p.rhs.erase (some w)⟩

/-- The value of the product. -/
def eval (r : Wire → Scalar) (p : Product) : Scalar :=
  Affine.eval r p.lhs * Affine.eval r p.rhs

/-- The value of the product, or the failure at its first wire without a value. -/
def tryEval {ε : Type} (r : Wire → Except ε Scalar) (p : Product) : Except ε Scalar := do
  let a ← Affine.tryEval r p.lhs
  let b ← Affine.tryEval r p.rhs
  return a * b

end Product

/-- A sum of products without zero sides. -/
structure QuadForm where
  terms : List Product
  nonzero : ∀ p ∈ terms, p.isZero = false
deriving DecidableEq

namespace QuadForm

@[ext] theorem ext {f g : QuadForm} (h : f.terms = g.terms) : f = g := by
  cases f; cases g; cases h; rfl

/-- The sum of the products, those with a zero side left out. -/
def ofProducts (ps : List Product) : QuadForm where
  terms := ps.filter (!·.isZero)
  nonzero := fun _ h ↦ by simpa using (List.mem_filter.mp h).2

instance : Zero QuadForm := ⟨⟨[], nofun⟩⟩

instance : Inhabited QuadForm := ⟨0⟩

/-- A single product. -/
def product (lhs rhs : Affine Wire) : QuadForm :=
  ofProducts [⟨lhs, rhs⟩]

/-- An affine sum as a form. -/
def linear (a : Affine Wire) : QuadForm :=
  product a (Affine.constant 1)

/-- One minus a wire. -/
def complement (w : Wire) : Affine Wire :=
  Affine.constant 1 - Affine.var w

/-- The exclusive or of two wires that carry bits: `(1 - x)·y + (1 - y)·x`. -/
def xor (x y : Wire) : QuadForm :=
  ofProducts [⟨complement x, Affine.var y⟩, ⟨complement y, Affine.var x⟩]

/-- Adds a product at the end. -/
def push (f : QuadForm) (p : Product) : QuadForm :=
  ofProducts (f.terms ++ [p])

/-- Whether the form has no terms. -/
def isZero (f : QuadForm) : Bool :=
  f.terms.isEmpty

/-- The distinct wires of the form in ascending order. -/
def wires (f : QuadForm) : List Wire :=
  Wire.ascending (f.terms.flatMap Product.wires)

/-- Puts zero in the place of a wire. -/
def substituteZero (f : QuadForm) (w : Wire) : QuadForm :=
  ofProducts (f.terms.map (Product.erase w))

/-- Renames the wires. -/
def rename (r : Wire → Wire) (f : QuadForm) : QuadForm :=
  ofProducts (f.terms.map (Product.rename r))

/-- The value of the form. -/
def eval (r : Wire → Scalar) (f : QuadForm) : Scalar :=
  (f.terms.map (Product.eval r)).sum

/-- The value of a list of products, or the first failure. -/
def tryEvalTerms {ε : Type} (r : Wire → Except ε Scalar) : List Product → Except ε Scalar
  | [] => .ok 0
  | p :: rest => do
    let a ← p.tryEval r
    let b ← tryEvalTerms r rest
    return a + b

/-- The value of the form, or the failure at its first wire without a value: term by term, the
left side before the right side. -/
def tryEval {ε : Type} (r : Wire → Except ε Scalar) (f : QuadForm) : Except ε Scalar :=
  tryEvalTerms r f.terms

end QuadForm

end Quadratize
