import Quadratize.Constraint.Basic
import Quadratize.Scalar.Literal
import Quadratize.Text.Lines

/-!
# The text form of constraint systems

The first line gives the number of variables. Every further line is a row pair such as
`0:-1;3:1`; comment lines and blank lines separate the constraints.
-/

namespace Quadratize

open Text

/-! ## Writing -/

/-- The terms of a row as `index:coefficient`, with commas between them. -/
def Row.render (r : Row) : List Char :=
  List.intercalate [','] (r.terms.map fun t ↦ decimal t.1.val ++ ':' :: t.2.toSignedHex)

/-- A row pair as a line. -/
def RowPair.render (p : RowPair) : List Char :=
  p.a.render ++ ';' :: (p.b.render ++ ['\n'])

/-- A constraint under its heading. -/
def Constraint.render (c : Constraint) (number : Nat) : List Char :=
  "# matrix ".toList ++ decimal number ++ '\n' :: c.flatMap RowPair.render

/-- The written form of a system, its constraints numbered from one. -/
def ConstraintSystem.render (s : ConstraintSystem) : List Char :=
  decimal s.numVariables ++ " # num variables/wires\n".toList ++
    (s.constraints.zipIdx 1).flatMap fun (c, i) ↦ c.render i

/-! ## Reading -/

/-- What is wrong with a line. -/
inductive RowFault
  | count (text : List Char)
  | separator
  | entry (text : List Char)
  | index (text : List Char)
deriving DecidableEq

/-- The text of a row fault. -/
def RowFault.message : RowFault → String
  | count text => "expected the number of variables, got " ++ String.ofList (quoted text)
  | separator => "row pair must contain exactly one ';'"
  | entry text => "expected `index:coefficient`, got " ++ String.ofList (quoted text)
  | index text => "invalid value index " ++ String.ofList (quoted text)

/-- Why a text is no constraint system. -/
inductive SystemReadError
  | missingHeader
  | malformed (line : Nat) (fault : RowFault)
  | literal (line : Nat) (cause : LiteralError)
deriving DecidableEq

/-- The text of a read error. -/
def SystemReadError.message : SystemReadError → String
  | missingHeader => "missing `<num variables>` header line"
  | malformed n fault => s!"line {n}: {fault.message}"
  | literal n cause => s!"line {n}: {cause.message}"

/-- Reads the index of a slot. -/
def Slot.read? (cs : List Char) : Option Slot :=
  match readBelow? slotLimit cs with
  | some n => if h : n < slotLimit then some ⟨n, h⟩ else none
  | none => none

/-- Reads a term of a row. -/
def Row.readTerm (n : Nat) (text : List Char) : Except SystemReadError (Slot × Scalar) :=
  match cut? ':' text with
  | none => .error (.malformed n (.entry text))
  | some (index, coeff) =>
    match Slot.read? (trim index) with
    | none => .error (.malformed n (.index index))
    | some slot =>
      match Scalar.read .hex coeff with
      | .error e => .error (.literal n e)
      | .ok c => .ok (slot, c)

/-- Reads a row, adding up terms of the same slot. -/
def Row.read (n : Nat) (text : List Char) : Except SystemReadError Row :=
  ((entries text).mapM (readTerm n)).map Sparse.ofTerms

/-- Reads a row pair. -/
def RowPair.read (n : Nat) (line : List Char) : Except SystemReadError RowPair :=
  match cut? ';' line with
  | none => .error (.malformed n .separator)
  | some (a, b) => do
    let a ← Row.read n a
    let b ← Row.read n b
    return ⟨a, b⟩

namespace ConstraintSystem

/-- Whether a trimmed line separates constraints. -/
def isSeparator : List Char → Bool
  | [] => true
  | c :: _ => c == '#'

/-- Puts rows that form a constraint in front of the constraints that follow. -/
def close (rows : Constraint) (rest : List Constraint) : List Constraint :=
  if rows.isEmpty then rest else rows :: rest

/-- Reads numbered lines: the rows before the first separator, and the constraints after it. -/
def readRows : List (List Char × Nat) → Except SystemReadError (Constraint × List Constraint)
  | [] => .ok ([], [])
  | (line, n) :: rest =>
    if isSeparator line then do
      let (rows, later) ← readRows rest
      return ([], close rows later)
    else do
      let p ← RowPair.read n line
      let (rows, later) ← readRows rest
      return (p :: rows, later)

/-- The text of the variable count in the first line. -/
def countText (header : List Char) : List Char :=
  trim (header.takeWhile (· != '#'))

/-- Reads a constraint system. -/
def read (text : List Char) : Except SystemReadError ConstraintSystem :=
  match (((lines text).map trim).zipIdx 1).dropWhile (·.1.isEmpty) with
  | [] => .error .missingHeader
  | (header, n) :: body =>
    match readBelow? countLimit (countText header) with
    | none => .error (.malformed n (.count (countText header)))
    | some count => do
      let (rows, later) ← readRows body
      return ⟨count, close rows later⟩

end ConstraintSystem

end Quadratize
