import Quadratize.Circuit.Walk

/-!
# Quadratic gates

Every product becomes a quadratic gate over the expansions of its two operands, and every
exclusive or becomes one with its formula. A linear gate that is read by a gate of another kind
becomes a quadratic gate with its expansion; the linear gates that took part in an expansion are
removed.
-/

namespace Quadratize.Circuit

/-- The quadratic gate in the place of an exclusive or. -/
def synthesizeXor (g : Gate) : Except CircuitError Gate :=
  match g.op, g.ins with
  | .xor, [x, y] => .ok { g with op := .quadratic (QuadForm.xor x y) }
  | .xor, _ => .error (.misshapen g)
  | _, _ => .ok g

/-- The positions of the gates that satisfy a condition. -/
def positions (gates : List Gate) (p : Gate → Bool) : List Nat :=
  (gates.zipIdx.filter fun (g, _) ↦ p g).map (·.2)

/-- Whether a gate other than a linear gate or a product reads the wire. -/
def readElsewhere (gates : List Gate) (w : Wire) : Bool :=
  gates.any fun g ↦ w ∈ g.ins && !g.op.isLinear && g.op != .mul

/-- Whether a linear gate is read by a gate of another kind. -/
def isKept (gates : List Gate) (g : Gate) : Bool :=
  g.op.isLinear && g.outs.any (readElsewhere gates)

/-- The forms of gates, by position. -/
abbrev Forms := List (Nat × QuadForm)

/-- The form of a product. -/
def productForm (gates : List Gate) (e : Expander) (g : Gate) :
    Except CircuitError (QuadForm × Expander) :=
  match g.ins with
  | [x, y] => do
    let (lhs, e) ← e.expand gates x
    let (rhs, e) ← e.expand gates y
    return (QuadForm.product lhs rhs, e)
  | _ => .error (.misshapen g)

/-- The form of a linear gate that is kept. -/
def keptForm (gates : List Gate) (e : Expander) (g : Gate) :
    Except CircuitError (QuadForm × Expander) :=
  match g.outs with
  | [z] => do
    let (a, e) ← e.expand gates z
    return (QuadForm.linear a, e)
  | _ => .error (.misshapen g)

/-- The forms of the gates at the given positions, one after the other. -/
def formsAt (gates : List Gate)
    (form : Expander → Gate → Except CircuitError (QuadForm × Expander)) :
    Expander → List Nat → Except CircuitError (Forms × Expander)
  | e, [] => .ok ([], e)
  | e, p :: ps =>
    match gates[p]? with
    | none => .error (.missing p)
    | some g => do
      let (f, e) ← form e g
      let (fs, e) ← formsAt gates form e ps
      return ((p, f) :: fs, e)

/-- The gate at a position after synthesis, unless it is removed. -/
def synthesized? (forms : Forms) (folded : List Nat) (g : Gate) (p : Nat) : Option Gate :=
  if p ∈ folded then none
  else
    match forms.lookup p with
    | some f => some { g.withForm f with note := [] }
    | none => some g

/-- Forms the quadratic gates. The second result is their number. -/
def synthesize (c : Circuit) : Except CircuitError (Circuit × Nat) := do
  let gates ← c.gates.mapM synthesizeXor
  let muls := positions gates (·.op == .mul)
  let kept := positions gates (isKept gates)
  let (mulForms, e) ← formsAt gates (productForm gates) {} muls
  let (keptForms, e) ← formsAt gates (keptForm gates) e kept
  let folded := e.visited.filter (· ∉ kept)
  let xors := c.gates.countP (·.op == .xor)
  return ({ c with
    gates := gates.zipIdx.filterMap fun (g, p) ↦ synthesized? (mulForms ++ keptForms) folded g p },
    xors + muls.length + kept.length)

end Quadratize.Circuit
