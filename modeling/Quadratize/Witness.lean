import Quadratize.Scalar.Literal
import Quadratize.Text.Lines

/-!
# Witnesses

A witness gives every slot a value. It is written as one line of base-16 numerals with commas
between them and may be read from several lines.
-/

namespace Quadratize

open Text

/-- The values of the slots. -/
structure Witness where
  values : List Scalar
deriving DecidableEq

namespace Witness

/-- The witness of zeros. -/
def zeros (n : Nat) : Witness :=
  ⟨List.replicate n 0⟩

/-- The number of slots. -/
def size (w : Witness) : Nat :=
  w.values.length

/-- The value of a slot. -/
def get? (w : Witness) (i : Nat) : Option Scalar :=
  w.values[i]?

/-- Changes the value of a slot. -/
def set (w : Witness) (i : Nat) (a : Scalar) : Witness :=
  ⟨w.values.set i a⟩

/-- The written form of a witness. -/
def render (w : Witness) : List Char :=
  List.intercalate [','] (w.values.map Scalar.toHex) ++ ['\n']

/-- A literal that cannot be read, and its line. -/
structure ReadError where
  line : Nat
  cause : LiteralError
deriving DecidableEq

/-- The text of a read error. -/
def ReadError.message (e : ReadError) : String :=
  s!"line {e.line}: {e.cause.message}"

/-- Reads the literals of a line. -/
def readLine (n : Nat) (line : List Char) : Except ReadError (List Scalar) :=
  ((entries line).mapM (Scalar.read .hex)).mapError (ReadError.mk n)

/-- Reads numbered lines one after the other. -/
def readLines : List (List Char × Nat) → Except ReadError (List Scalar)
  | [] => .ok []
  | (line, n) :: rest => do
    let xs ← readLine n line
    let ys ← readLines rest
    return xs ++ ys

/-- Reads a witness, its values on any number of lines. -/
def read (text : List Char) : Except ReadError Witness :=
  (readLines ((lines text).zipIdx 1)).map Witness.mk

end Witness

end Quadratize
