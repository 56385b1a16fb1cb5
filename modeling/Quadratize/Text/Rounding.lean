import Quadratize.Text.Numeral

/-!
# Rounded quotients

A quotient is rounded to the nearest number with 53 significant bits, and that number to tenths.
Both times a half goes to the even neighbour.
-/

namespace Quadratize.Text

/-- The quotient rounded to the nearest integer, a half to the even neighbour. -/
def roundDiv (n d : Nat) : Nat :=
  let q := n / d
  let r := n % d
  if 2 * r < d then q
  else if d < 2 * r then q + 1
  else if q % 2 = 0 then q
  else q + 1

/-- The exponent `e` for which `n * 2 ^ e / d` has 53 bits, if `n` is positive and below
`2 ^ 53 * d`. -/
def binaryScale (n d : Nat) : Nat :=
  let e := 52 + d.log2 - n.log2
  if n * Nat.pow 2 e / d < Nat.pow 2 52 then e + 1 else e

/-- The quotient rounded to 53 significant bits and then to tenths, counted in tenths. -/
def tenths (n d : Nat) : Nat :=
  if n = 0 ∨ d = 0 then 0
  else
    let e := binaryScale n d
    roundDiv (10 * roundDiv (n * Nat.pow 2 e) d) (Nat.pow 2 e)

/-- A quotient with one decimal place. -/
def renderTenths (n d : Nat) : List Char :=
  decimal (tenths n d / 10) ++ '.' :: decimal (tenths n d % 10)

/-- Puts a comma in front of every third digit, counted from the last one. -/
def groupDigits : List Char → List Char
  | [] => []
  | c :: cs =>
    if cs.length % 3 = 0 ∧ cs ≠ [] then c :: ',' :: groupDigits cs else c :: groupDigits cs

/-- A number in base 10 with commas between groups of three digits. -/
def grouped (n : Nat) : List Char :=
  groupDigits (decimal n)

end Quadratize.Text
