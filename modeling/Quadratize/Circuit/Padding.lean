import Quadratize.Circuit.Error

/-!
# Padding gates

Before quadratic gates are formed, some wires have to be outputs of products:

* a split or a zero test reads a primary input or a product with the constant one;
* a pack becomes a chain of doublings and additions;
* a declared output that is driven by a linear gate becomes a product with the constant one.

New wires are numbered from a base above every wire of the circuit.
-/

namespace Quadratize.Circuit

/-- New wires have at least this number. -/
def freshBase : Nat := 100000000

/-- The number of the first new wire. -/
def firstFresh (c : Circuit) : Nat :=
  max freshBase (c.maxWire?.elim 0 (·.id + 1))

/-- Takes the next new wire. -/
def takeFresh (next : Nat) : Except Malformed (Wire × Nat) :=
  match Wire.ofNat? next with
  | some w => .ok (w, next + 1)
  | none => .error .exhausted

/-- The outcome of a padding step: the gates that it went through, the gates that it adds, and the
number of the next new wire. -/
structure Padded where
  gates : List Gate
  added : List Gate
  next : Nat
deriving DecidableEq

/-- A gate that multiplies by the constant one. -/
def copyGate (one source target : Wire) (note : String) : Gate :=
  ⟨.mul, [source, one], [target], note.toList⟩

/-! ## Inputs of splits and zero tests -/

/-- The first input of a split or a zero test, unless it is a primary input. -/
def internalRead? (inputs : List Wire) (g : Gate) : Option Wire :=
  match g.op with
  | .split | .zerop => g.ins.head?.filter (· ∉ inputs)
  | _ => none

/-- Puts a product in front of every split and zero test that reads an internal wire. -/
def padReaders (one : Wire) (inputs : List Wire) : Nat → List Gate → Except Malformed Padded
  | next, [] => .ok ⟨[], [], next⟩
  | next, g :: rest =>
    match internalRead? inputs g with
    | none => do
      let p ← padReaders one inputs next rest
      return { p with gates := g :: p.gates }
    | some w => do
      let (v, next) ← takeFresh next
      let p ← padReaders one inputs next rest
      return ⟨{ g with ins := v :: g.ins.tail } :: p.gates,
        copyGate one w v ("QuadGate before " ++ g.op.name) :: p.added, p.next⟩

/-! ## Packs -/

/-- The note of the gates that replace a pack. -/
def packNote : List Char := "QuadGate for pack".toList

/-- Doubles `acc` and adds the next lower bit, down to the lowest bit. -/
def packChain (output : Wire) : Nat → Wire → List Wire → Except Malformed (List Gate × Nat)
  | next, _, [] => .ok ([], next)
  | next, acc, bit :: lower => do
    let (doubled, next) ← takeFresh next
    let (sum, next) ← if lower.isEmpty then .ok (output, next) else takeFresh next
    let (gates, next) ← packChain output next sum lower
    return (⟨.constMul (Scalar.twoPow 1), [acc], [doubled], packNote⟩ ::
      ⟨.add, [bit, doubled], [sum], packNote⟩ :: gates, next)

/-- The gates that replace a pack of the given bits, the highest bit first. -/
def packGates (output : Wire) (next : Nat) : List Wire → Except Malformed (List Gate × Nat)
  | [] => .ok ([], next)
  | [bit] => .ok ([⟨.constMul 1, [bit], [output], packNote⟩], next)
  | high :: lower => packChain output next high lower

/-- The output of a pack. -/
def packOutput? (g : Gate) : Option Wire :=
  if g.op = .pack then g.outs.head? else none

/-- Replaces every pack. -/
def expandPacks : Nat → List Gate → Except Malformed Padded
  | next, [] => .ok ⟨[], [], next⟩
  | next, g :: rest =>
    match packOutput? g with
    | none => do
      let p ← expandPacks next rest
      return { p with gates := g :: p.gates }
    | some z => do
      let (chain, next) ← packGates z next g.ins.reverse
      let p ← expandPacks next rest
      return { p with added := chain ++ p.added }

/-! ## Declared outputs of linear gates -/

/-- The first output of a linear gate, if it is declared. -/
def linearOutput? (outputs : List Wire) (g : Gate) : Option Wire :=
  if g.op.isLinear then g.outs.head?.filter (· ∈ outputs) else none

/-- Puts a product between every linear gate and the declared output that it drives. -/
def padOutputs (one : Wire) (outputs : List Wire) : Nat → List Gate → Except Malformed Padded
  | next, [] => .ok ⟨[], [], next⟩
  | next, g :: rest =>
    match linearOutput? outputs g with
    | none => do
      let p ← padOutputs one outputs next rest
      return { p with gates := g :: p.gates }
    | some z => do
      let (v, next) ← takeFresh next
      let p ← padOutputs one outputs next rest
      return ⟨{ g with outs := v :: g.outs.tail } :: p.gates,
        copyGate one v z "QuadGate before output" :: p.added, p.next⟩

/-- Inserts the padding gates. The second result is their number. -/
def insertPadding (c : Circuit) : Except Malformed (Circuit × Nat) :=
  match c.one? with
  | none => .error .noInputs
  | some one => do
    let readers ← padReaders one c.inputWires c.firstFresh c.gates
    let packs ← expandPacks readers.next readers.gates
    let inner := packs.gates ++ readers.added ++ packs.added
    let outs ← padOutputs one c.outputs packs.next inner
    return ({ c with gates := outs.gates ++ outs.added },
      readers.added.length + packs.added.length + outs.added.length)

end Quadratize.Circuit
