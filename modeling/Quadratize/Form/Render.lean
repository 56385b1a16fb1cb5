import Quadratize.Form.Basic
import Quadratize.Scalar.Literal

/-!
# The text form of quadratic forms

A wire is written `_w_`. Coefficients are written by their magnitude, with the sign in front of
the term; a side of a product stands in parentheses if it has several terms.
-/

namespace Quadratize

open Text

/-- The placeholder of a wire. -/
def Wire.placeholder (w : Wire) : List Char :=
  '_' :: (w.render ++ ['_'])

namespace Affine

/-- A term without its sign. -/
def renderTerm : Option Wire × Scalar → List Char
  | (none, c) => decimal c.magnitude
  | (some w, c) =>
    if c = 1 ∨ -c = 1 then w.placeholder else decimal c.magnitude ++ '*' :: w.placeholder

/-- The first term with its sign. -/
def renderFirst (t : Option Wire × Scalar) : List Char :=
  if t.2.isNegative then '-' :: renderTerm t else renderTerm t

/-- A further term with its sign as an operator. -/
def renderNext (t : Option Wire × Scalar) : List Char :=
  (if t.2.isNegative then " - ".toList else " + ".toList) ++ renderTerm t

/-- The written form of an affine sum. -/
def render (a : Affine Wire) : List Char :=
  match a.terms with
  | [] => ['0']
  | t :: rest => renderFirst t ++ rest.flatMap renderNext

/-- A text in parentheses. -/
def parens (cs : List Char) : List Char :=
  '(' :: (cs ++ [')'])

/-- A left side, in parentheses if it has several terms. -/
def renderLeft (a : Affine Wire) : List Char :=
  if 2 ≤ a.size then parens (render a) else render a

/-- A right side, also in parentheses if its only term has a coefficient. -/
def renderRight (a : Affine Wire) : List Char :=
  if 2 ≤ a.size ∨ a.terms.any (·.2 ≠ 1) then parens (render a) else render a

/-- Whether the sum is the constant one. -/
def isUnit (a : Affine Wire) : Bool :=
  asConstant? a = some 1

end Affine

/-- The written form of a product; a side that is one is left out. -/
def Product.render (p : Product) : List Char :=
  if p.isZero then ['0']
  else if Affine.isUnit p.rhs then Affine.renderLeft p.lhs
  else if Affine.isUnit p.lhs then Affine.renderLeft p.rhs
  else Affine.renderLeft p.lhs ++ " * ".toList ++ Affine.renderRight p.rhs

namespace QuadForm

/-- A further product; a minus sign at its start becomes the operator. -/
def renderNext (p : Product) : List Char :=
  match p.render with
  | '-' :: cs => " - ".toList ++ cs
  | cs => " + ".toList ++ cs

/-- The written form of a quadratic form. -/
def render (f : QuadForm) : List Char :=
  match f.terms with
  | [] => ['0']
  | p :: rest => p.render ++ rest.flatMap renderNext

end QuadForm

end Quadratize
