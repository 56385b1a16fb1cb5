import Quadratize.Circuit.Error

/-!
# Expansion of wires

The expansion of a wire is the affine sum that the linear gates behind it compute. Wires that are
not driven by a linear gate stand for themselves. Expansions of gates are kept, so that a gate is
expanded once.
-/

namespace Quadratize

/-- The expansions of gates found so far, by position, and the positions of the linear gates that
took part. -/
structure Expander where
  known : List (Nat × Affine Wire) := []
  visited : List Nat := []
deriving DecidableEq

namespace Expander

/-- The position of the linear gate that drives a wire. -/
def linearProducer? (gates : List Gate) (w : Wire) : Option Nat :=
  (Gate.producer? gates w).filter fun p ↦ gates[p]?.any (·.op.isLinear)

/-- The sum that a linear gate computes from the sums of its inputs. -/
def combine? : Opcode → List (Affine Wire) → Option (Affine Wire)
  | .add, [x, y] => some (x + y)
  | .sub, [x, y] => some (x - y)
  | .constMul c, [x] => some (x.scale c)
  | _, _ => none

/-- Whether the expansion of a gate is known. -/
def knows (e : Expander) (p : Nat) : Bool :=
  (e.known.lookup p).isSome

/-- The expansion of a gate that is known. -/
def expansion (e : Expander) (p : Nat) : Except CircuitError (Affine Wire) :=
  match e.known.lookup p with
  | some a => .ok a
  | none => .error (.missing p)

/-- The sum of an input. Its producer, if it is linear, has to be known. -/
def operand (gates : List Gate) (e : Expander) (w : Wire) : Except CircuitError (Affine Wire) :=
  match linearProducer? gates w with
  | some q => e.expansion q
  | none => .ok (Affine.var w)

/-- Marks a gate as visited. -/
def mark (e : Expander) (p : Nat) : Expander :=
  { e with visited := if p ∈ e.visited then e.visited else e.visited ++ [p] }

/-- Keeps the expansion of a gate. -/
def learn (p : Nat) (a : Affine Wire) (e : Expander) : Expander :=
  { e with known := (p, a) :: e.known }

theorem knows_learn {e : Expander} {p q : Nat} {a : Affine Wire} :
    (e.learn p a).knows q = true ↔ q = p ∨ e.knows q = true := by
  change (List.lookup q ((p, a) :: e.known)).isSome = true ↔ _
  by_cases hq : q = p
  · simp [hq]
  · rw [List.lookup_cons, beq_false_of_ne hq]
    exact ⟨.inr, fun h ↦ h.resolve_left hq⟩

/-- The positions of the linear gates that a gate reads from and that are not known. -/
def needed (gates : List Gate) (e : Expander) (g : Gate) : List Nat :=
  (g.ins.filterMap (linearProducer? gates)).filter (!e.knows ·)

end Expander

end Quadratize
