import Quadratize.Circuit.Basic
import Quadratize.Proofs.Form.Eval
import Quadratize.Proofs.Scalar.Bits

/-!
# Equations of gates

An assignment of scalars to wires satisfies a circuit if the equation of every gate holds.  The
equation depends only on the wires of the gate, and renaming the wires of a gate renames the
assignment.
-/

namespace Quadratize

namespace Gate

/-! ## Shapes -/

/-- The gates that have the wires of their kind. -/
inductive Shaped : Gate → Prop
  | add (x y z : Wire) (note : List Char) : Shaped ⟨.add, [x, y], [z], note⟩
  | sub (x y z : Wire) (note : List Char) : Shaped ⟨.sub, [x, y], [z], note⟩
  | constMul (c : Scalar) (x z : Wire) (note : List Char) : Shaped ⟨.constMul c, [x], [z], note⟩
  | mul (x y z : Wire) (note : List Char) : Shaped ⟨.mul, [x, y], [z], note⟩
  | xor (x y z : Wire) (note : List Char) : Shaped ⟨.xor, [x, y], [z], note⟩
  | split (x b : Wire) (bs : List Wire) (note : List Char) : Shaped ⟨.split, [x], b :: bs, note⟩
  | pack (b : Wire) (bs : List Wire) (z : Wire) (note : List Char) :
    Shaped ⟨.pack, b :: bs, [z], note⟩
  | zerop (x m y : Wire) (note : List Char) : Shaped ⟨.zerop, [x], [m, y], note⟩
  | quadratic (f : QuadForm) (ins : List Wire) (z : Wire) (note : List Char) :
    Shaped ⟨.quadratic f, ins, [z], note⟩

theorem shaped_iff {g : Gate} : g.Shaped ↔ g.hasShape = true := by
  constructor
  · intro h
    cases h <;> simp [hasShape, Opcode.inArity, Opcode.outArity, Arity.admits]
  · intro h
    obtain ⟨op, ins, outs, note⟩ := g
    cases op <;>
      simp only [hasShape, Opcode.inArity, Opcode.outArity, Arity.admits, Bool.and_eq_true,
        beq_iff_eq, decide_eq_true_eq, List.length_eq_one_iff, List.length_eq_two,
        Nat.succ_le_iff, List.length_pos_iff_exists_cons, Nat.zero_le, true_and] at h
    case add =>
      obtain ⟨⟨x, y, rfl⟩, z, rfl⟩ := h
      exact .add x y z note
    case sub =>
      obtain ⟨⟨x, y, rfl⟩, z, rfl⟩ := h
      exact .sub x y z note
    case constMul c =>
      obtain ⟨⟨x, rfl⟩, z, rfl⟩ := h
      exact .constMul c x z note
    case mul =>
      obtain ⟨⟨x, y, rfl⟩, z, rfl⟩ := h
      exact .mul x y z note
    case xor =>
      obtain ⟨⟨x, y, rfl⟩, z, rfl⟩ := h
      exact .xor x y z note
    case split =>
      obtain ⟨⟨x, rfl⟩, b, bs, rfl⟩ := h
      exact .split x b bs note
    case pack =>
      obtain ⟨⟨b, bs, rfl⟩, z, rfl⟩ := h
      exact .pack b bs z note
    case zerop =>
      obtain ⟨⟨x, rfl⟩, m, y, rfl⟩ := h
      exact .zerop x m y note
    case quadratic f =>
      obtain ⟨z, rfl⟩ := h
      exact .quadratic f ins z note

/-- A linear gate drives one wire. -/
theorem Shaped.outs_of_isLinear {g : Gate} (h : g.Shaped) (hlinear : g.op.isLinear = true) :
    ∃ z, g.outs = [z] := by
  cases h with
  | add x y z note => exact ⟨z, rfl⟩
  | sub x y z note => exact ⟨z, rfl⟩
  | constMul c x z note => exact ⟨z, rfl⟩
  | _ => cases hlinear

/-- A gate drives at least one wire. -/
theorem Shaped.exists_mem_outs {g : Gate} (h : g.Shaped) : ∃ w, w ∈ g.outs := by
  cases h <;> exact ⟨_, List.mem_cons_self⟩

/-! ## Equations -/

/-- The equation of a gate. -/
def Holds (r : Wire → Scalar) (g : Gate) : Prop :=
  match g.op, g.ins, g.outs with
  | .add, [x, y], [z] => r z = r x + r y
  | .sub, [x, y], [z] => r z = r x - r y
  | .constMul c, [x], [z] => r z = c * r x
  | .mul, [x, y], [z] => r z = r x * r y
  | .xor, [x, y], [z] => r z = r x + r y - 2 * r x * r y
  | .split, [x], bs => bs.map r = (r x).bits bs.length
  | .pack, bs, [z] => r z = Scalar.bitSum (bs.map r)
  | .zerop, [x], [m, y] => if r x = 0 then r m = 0 ∧ r y = 0 else r m = (r x)⁻¹ ∧ r y = 1
  | .quadratic f, _, [z] => r z = f.eval r
  | _, _, _ => False

/-- The wires that the equation reads: those of the form of a quadratic gate, the inputs of other
gates. -/
def reads (g : Gate) : List Wire :=
  match g.op with
  | .quadratic f => f.wires
  | _ => g.ins

/-- The equation depends only on the wires that are read or driven. -/
theorem holds_congr {r q : Wire → Scalar} {g : Gate} (hshape : g.Shaped)
    (hreads : ∀ w ∈ g.reads, r w = q w) (houts : ∀ w ∈ g.outs, r w = q w) :
    g.Holds r ↔ g.Holds q := by
  cases hshape with
  | quadratic f ins z note =>
    have hz : r z = q z := houts z (by simp)
    have hf : f.eval r = f.eval q := QuadForm.eval_congr hreads
    simp only [Holds, hz, hf]
  | split x b bs note =>
    have hx : r x = q x := hreads x (by simp [reads])
    have hbs : (b :: bs).map r = (b :: bs).map q := List.map_congr_left houts
    simp only [Holds, hx, hbs]
  | pack b bs z note =>
    have hz : r z = q z := houts z (by simp)
    have hbs : (b :: bs).map r = (b :: bs).map q := List.map_congr_left hreads
    simp only [Holds, hz, hbs]
  | _ =>
    simp only [reads, List.forall_mem_cons] at hreads houts
    simp only [Holds, hreads, houts]

/-! ## Renaming -/

theorem Shaped.rename {g : Gate} (h : g.Shaped) (f : Wire → Wire) : (g.rename f).Shaped := by
  cases h <;> constructor

/-- The equation of a renamed gate is the equation at the renamed assignment. -/
theorem holds_rename {g : Gate} (h : g.Shaped) (r : Wire → Scalar) (f : Wire → Wire) :
    (g.rename f).Holds r ↔ g.Holds (r ∘ f) := by
  cases h with
  | quadratic form ins z note =>
    simp only [Holds, Gate.rename, Opcode.rename, List.map_cons, List.map_nil,
      QuadForm.eval_rename, Function.comp_apply]
  | split x b bs note =>
    simp only [Holds, Gate.rename, Opcode.rename, List.map_cons, List.map_nil, List.map_map,
      List.length_cons, List.length_map, Function.comp_apply]
  | pack b bs z note =>
    simp only [Holds, Gate.rename, Opcode.rename, List.map_cons, List.map_nil, List.map_map,
      Function.comp_apply]
  | _ => exact Iff.rfl

end Gate

namespace Circuit

/-- Whether the equation of every gate holds. -/
def Satisfies (r : Wire → Scalar) (c : Circuit) : Prop :=
  ∀ g ∈ c.gates, g.Holds r

/-- The relation between values of the primary inputs and of the declared outputs: some assignment
that satisfies the circuit has these values. -/
def Relates (c : Circuit) (ins outs : List Scalar) : Prop :=
  ∃ r, c.Satisfies r ∧ c.inputWires.map r = ins ∧ c.outputs.map r = outs

end Circuit

end Quadratize
