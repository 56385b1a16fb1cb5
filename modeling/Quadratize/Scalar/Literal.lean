import Quadratize.Scalar.Basic
import Quadratize.Text.Blank
import Quadratize.Text.Numeral
import Quadratize.Text.Quoted

/-!
# Scalar literals

A literal is a numeral in base 10 or 16 with an optional minus sign. Blanks may stand around the
sign, a base-16 numeral may start with `0x`, and underscores may separate digits.
-/

namespace Quadratize

open Text

/-- The two bases of literals. -/
inductive Radix
  | dec
  | hex
deriving DecidableEq

/-- The base itself. -/
def Radix.base : Radix → Nat
  | dec => 10
  | hex => 16

/-- Why a text is no scalar literal. -/
inductive LiteralError
  | empty
  | invalid (radix : Radix) (literal : List Char)
deriving DecidableEq

/-- The text of a literal error. -/
def LiteralError.message : LiteralError → String
  | empty => "empty scalar literal"
  | invalid radix literal =>
    "invalid base-" ++ toString radix.base ++ " scalar literal " ++ String.ofList (quoted literal)

namespace Scalar

/-! ## Writing -/

/-- The canonical representative in base 10. -/
def toDecimal (a : Scalar) : List Char :=
  decimal a.val

/-- The canonical representative in base 16. -/
def toHex (a : Scalar) : List Char :=
  numeral 16 a.val

/-- The signed representative in base 16. -/
def toSignedHex (a : Scalar) : List Char :=
  if a.isNegative then '-' :: numeral 16 a.magnitude else numeral 16 a.val

instance : ToString Scalar := ⟨fun a ↦ String.ofList a.toDecimal⟩

/-! ## Reading -/

/-- Drops one plus sign, unless a second one follows. -/
def dropSinglePlus : List Char → List Char
  | '+' :: '+' :: cs => '+' :: '+' :: cs
  | '+' :: cs => cs
  | cs => cs

/-- Continues the value `acc` with digits among which underscores are skipped. -/
def readSpacedDigits (radix : Nat) : Nat → List Char → Option Nat
  | acc, [] => some acc
  | acc, c :: cs =>
    if c = '_' then readSpacedDigits radix acc cs
    else
      match digit? radix c with
      | some d => readSpacedDigits radix (acc * radix + d) cs
      | none => none

/-- The number that an unsigned literal stands for. -/
def readMagnitude? (radix : Nat) (cs : List Char) : Option Nat :=
  match dropSinglePlus cs with
  | [] => none
  | '_' :: _ => none
  | ds => readSpacedDigits radix 0 ds

/-- Splits off a minus sign and the blanks after it. -/
def splitSign : List Char → Bool × List Char
  | '-' :: cs => (true, trimStart cs)
  | cs => (false, cs)

/-- Drops the mark of a base-16 numeral. -/
def dropMark (radix : Radix) (cs : List Char) : List Char :=
  match radix, cs with
  | .hex, '0' :: 'x' :: ds => ds
  | .hex, '0' :: 'X' :: ds => ds
  | _, ds => ds

/-- Reads a literal, reducing its value into the field. -/
def read (radix : Radix) (literal : List Char) : Except LiteralError Scalar :=
  let (negative, unsigned) := splitSign (trim literal)
  let digits := dropMark radix unsigned
  if digits.isEmpty then .error .empty
  else
    match readMagnitude? radix.base digits with
    | some n => .ok (if negative then -reduce n else reduce n)
    | none => .error (.invalid radix literal)

end Scalar

end Quadratize
