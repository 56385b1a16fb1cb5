import Quadratize.Circuit.Basic
import Quadratize.Text.Blank
import Quadratize.Text.Scan

/-!
# Lines of the circuit text

A line holds at most one statement, then a comment behind `#`. Spaces and tabs between the parts
of a statement are optional, and so are the angle brackets around a wire list.
-/

namespace Quadratize

open Text

/-- A statement with its numbers as they are written. -/
inductive Statement
  | total (count : List Char)
  | input (wire : List Char)
  | output (wire : List Char)
  | gate (kind inCount : List Char) (ins : List (List Char)) (outCount : List Char)
      (outs : List (List Char))
deriving DecidableEq

/-- A line: its statement and the text of its comment. -/
structure Line where
  statement : Option Statement
  note : List Char
deriving DecidableEq

namespace Statement

/-- Whether a character may occur in the kind of a gate. -/
def isKindChar (c : Char) : Bool :=
  isDigit c || (97 ≤ c.toNat && c.toNat ≤ 122) || (65 ≤ c.toNat && c.toNat ≤ 90)
    || c == '-' || c == '_'

/-- Splits off the kind of a gate. -/
def kind? (cs : List Char) : Option (List Char × List Char) :=
  match (skipGaps cs).takeWhile isKindChar with
  | [] => none
  | kind => some (kind, (skipGaps cs).dropWhile isKindChar)

/-- Splits off a wire list; an opening bracket asks for a closing one. -/
def wires? (cs : List Char) : Option (List (List Char) × List Char) :=
  match keyword? "<" cs with
  | some inside => (keyword? ">" (numbers inside).2).map ((numbers inside).1, ·)
  | none => some (numbers cs)

/-- Splits off a keyword and a number. -/
def counted? (word : String) (cs : List Char) : Option (List Char × List Char) := do
  let cs ← keyword? word cs
  number? cs

/-- Splits off a gate. -/
def gate? (cs : List Char) : Option (Statement × List Char) := do
  let (kind, cs) ← kind? cs
  let (inCount, cs) ← counted? "in" cs
  let (ins, cs) ← wires? cs
  let (outCount, cs) ← counted? "out" cs
  let (outs, cs) ← wires? cs
  return (.gate kind inCount ins outCount outs, cs)

/-- Splits off a statement. The first kind of statement that fits is taken. -/
def scan? (cs : List Char) : Option (Statement × List Char) :=
  match counted? "total" cs with
  | some (n, rest) => some (.total n, rest)
  | none =>
    match counted? "input" cs with
    | some (n, rest) => some (.input n, rest)
    | none =>
      match counted? "output" cs with
      | some (n, rest) => some (.output n, rest)
      | none => gate? cs

end Statement

namespace Line

/-- The comment that makes up the rest of a line, empty if the line is at its end. -/
def comment? (cs : List Char) : Option (List Char) :=
  match skipGaps cs with
  | [] => some []
  | '#' :: note => if note.any (fun c ↦ c == '\n' || c == '\r') then none else some (trim note)
  | _ => none

/-- Reads a line. -/
def read? (cs : List Char) : Option Line :=
  match Statement.scan? cs with
  | some (s, rest) => (comment? rest).map (⟨some s, ·⟩)
  | none => (comment? cs).map (⟨none, ·⟩)

end Line

end Quadratize
