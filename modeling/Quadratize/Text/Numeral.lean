/-!
# Numerals

Numbers are written with the digits `0` to `9` and `a` to `f`; letters are read in either case.
-/

namespace Quadratize.Text

/-- The value of a digit or letter, if it is below the radix. -/
def digit? (radix : Nat) (c : Char) : Option Nat :=
  let n := c.toNat
  let value :=
    if 48 ≤ n && n ≤ 57 then n - 48
    else if 97 ≤ n && n ≤ 122 then n - 87
    else if 65 ≤ n && n ≤ 90 then n - 55
    else radix
  if value < radix then some value else none

/-- The numeral of a number. -/
def numeral (radix n : Nat) : List Char :=
  Nat.toDigits radix n

/-- The decimal numeral of a number. -/
def decimal (n : Nat) : List Char :=
  numeral 10 n

/-- Continues the value `acc` with the digits that follow. -/
def readDigits (radix : Nat) : Nat → List Char → Option Nat
  | acc, [] => some acc
  | acc, c :: cs =>
    match digit? radix c with
    | some d => readDigits radix (acc * radix + d) cs
    | none => none

/-- The number that a nonempty run of digits stands for. -/
def readNumeral? (radix : Nat) (cs : List Char) : Option Nat :=
  if cs.isEmpty then none else readDigits radix 0 cs

/-- Drops one plus sign at the start. -/
def dropPlus : List Char → List Char
  | '+' :: cs => cs
  | cs => cs

/-- A decimal number below the limit, with at most one plus sign in front. -/
def readBelow? (limit : Nat) (cs : List Char) : Option Nat :=
  match readNumeral? 10 (dropPlus cs) with
  | some n => if n < limit then some n else none
  | none => none

/-- Counts are words of 64 bits, so they lie below this limit. -/
def countLimit : Nat := 18446744073709551616

/-- Whether a character is one of the ten digits. -/
def isDigit (c : Char) : Bool :=
  48 ≤ c.toNat && c.toNat ≤ 57

end Quadratize.Text
