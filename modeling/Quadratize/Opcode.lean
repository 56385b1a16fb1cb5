import Quadratize.Form.Render
import Quadratize.Formula.Read

/-!
# Kinds of gates

A gate computes its outputs from its inputs: a linear function, a product, an exclusive or, the
bits of a value or the value of bits, a zero test, or a quadratic form.
-/

namespace Quadratize

open Text

/-- What a gate computes. -/
inductive Opcode
  /-- The sum of two wires. -/
  | add
  /-- The difference of two wires. -/
  | sub
  /-- A multiple of a wire. -/
  | constMul (c : Scalar)
  /-- The product of two wires. -/
  | mul
  /-- The exclusive or of two bits. -/
  | xor
  /-- The bits of a wire, the lowest first. -/
  | split
  /-- The value of bits, the lowest first. -/
  | pack
  /-- The inverse of a wire and one, or two zeros if the wire is zero. -/
  | zerop
  /-- The value of a quadratic form. -/
  | quadratic (form : QuadForm)
deriving DecidableEq

/-- How many wires a gate may have on one side. -/
inductive Arity
  | exactly (n : Nat)
  | atLeast (n : Nat)
deriving DecidableEq

namespace Arity

/-- Whether `n` wires are right. -/
def admits : Arity → Nat → Bool
  | exactly k, n => n == k
  | atLeast k, n => k ≤ n

/-- The text of an arity. -/
def message : Arity → String
  | exactly n => toString n
  | atLeast n => s!"at least {n}"

end Arity

namespace Opcode

/-- The number of inputs. -/
def inArity : Opcode → Arity
  | add | sub | mul | xor => .exactly 2
  | constMul _ | split | zerop => .exactly 1
  | pack => .atLeast 1
  | quadratic _ => .atLeast 0

/-- The number of outputs. -/
def outArity : Opcode → Arity
  | add | sub | constMul _ | mul | xor | pack | quadratic _ => .exactly 1
  | split => .atLeast 1
  | zerop => .exactly 2

/-- The name of a kind, without constant or form. -/
def name : Opcode → String
  | add => "add"
  | sub => "sub"
  | constMul _ => "const-mul"
  | mul => "mul"
  | xor => "xor"
  | split => "split"
  | pack => "pack"
  | zerop => "zerop"
  | quadratic _ => "quadratic"

/-- The names of all kinds in ascending order. -/
def names : List String :=
  ["add", "const-mul", "mul", "pack", "quadratic", "split", "sub", "xor", "zerop"]

/-- Whether the gate computes a linear function of its inputs. -/
def isLinear : Opcode → Bool
  | add | sub | constMul _ => true
  | _ => false

/-- Whether the gate computes a quadratic form. -/
def isQuadratic : Opcode → Bool
  | quadratic _ => true
  | _ => false

/-- Renames the wires of a form. -/
def rename (r : Wire → Wire) : Opcode → Opcode
  | quadratic f => quadratic (f.rename r)
  | op => op

/-! ## Tags -/

/-- The tag of a kind, with the constant of a multiple. -/
def tag : Opcode → List Char
  | constMul c =>
    if c.isNegative then "const-mul-neg-".toList ++ numeral 16 c.magnitude
    else "const-mul-".toList ++ c.toHex
  | op => op.name.toList

/-- Why a tag and its note give no kind. -/
inductive ReadError
  | unknown (tag : List Char)
  | constant (tag : List Char)
  | formula (cause : FormulaError)
deriving DecidableEq

/-- The text of a read error. -/
def ReadError.message : ReadError → String
  | unknown tag => "unknown gate kind `" ++ String.ofList tag ++ "`"
  | constant tag => "invalid constant in `" ++ String.ofList tag ++ "`"
  | formula cause => cause.message

/-- The kinds whose tag is their name. -/
def plain? (tag : List Char) : Option Opcode :=
  [add, sub, mul, xor, split, pack, zerop].find? fun op ↦ op.name.toList = tag

/-- The constant of a multiple, as a magnitude in base 16 behind an optional `neg-`. -/
def readConstant? (text : List Char) : Option Scalar :=
  match "neg-".toList.isPrefixOf? text with
  | some digits => (readNumeral? 16 digits).map fun n ↦ -Scalar.reduce n
  | none => (readNumeral? 16 text).map Scalar.reduce

/-- Reads a tag. The form of a quadratic gate is read from its note. -/
def read (tag note : List Char) : Except ReadError Opcode :=
  match plain? tag with
  | some op => .ok op
  | none =>
    if tag = "quadratic".toList ∨ tag = "quad_gate".toList then
      match QuadForm.read note with
      | .ok f => .ok (quadratic f)
      | .error e => .error (.formula e)
    else
      match "const-mul-".toList.isPrefixOf? tag with
      | none => .error (.unknown tag)
      | some text =>
        match readConstant? text with
        | some c => .ok (constMul c)
        | none => .error (.constant tag)

end Opcode

end Quadratize
