import Quadratize.Proofs.Circuit.Canonical
import Quadratize.Proofs.Compile.Passes

/-!
# Canonical form

A compilation that succeeds ends in a canonical circuit with a valid constraint system.
-/

namespace Quadratize.Circuit

variable {c k : Circuit} {opts : Options} {C : Compiled}

theorem Passes.canonical (p : Passes opts c k) : k.Canonical where
  toValid := p.valid
  kinds := p.isCanonical
  order := p.inOrder
  wireIds := p.ids_wires
  inputIds := by rw [p.ids_inputWires, p.length_inputs]

/-- The result of a compilation is a valid circuit of quadratic gates, splits and zero tests in
evaluation order.  Its wires are the numbers from zero on, the primary inputs first; its declared
outputs are in ascending order; its constraint system is valid and has a slot for each wire. -/
theorem canonical_form_of_compile (h : c.compile opts = .ok C) :
    C.circuit.validate = .ok () ∧
      (∀ g ∈ C.circuit.gates, (∃ f, g.op = .quadratic f) ∨ g.op = .split ∨ g.op = .zerop) ∧
      C.circuit.wires.map Wire.id = List.range C.circuit.numVariables ∧
      C.circuit.inputWires.map Wire.id = List.range c.inputs.length ∧
      (∀ before g after, C.circuit.gates = before ++ g :: after → ∀ w ∈ g.ins,
        w ∈ C.circuit.inputWires ∨ ∃ a ∈ before, w ∈ a.outs) ∧
      C.circuit.outputs.Pairwise (·.id ≤ ·.id) ∧
      C.circuit.outputs.length = c.outputs.length ∧
      C.system.validate = .ok () ∧ C.system.numVariables = C.circuit.numVariables := by
  obtain ⟨hsystem, ⟨p⟩⟩ := compile_eq_ok.mp h
  refine ⟨validate_eq_ok.mpr p.valid, p.isCanonical, p.ids_wires, p.ids_inputWires, ?_,
    outputs_sortGates_ascending p.sort, p.length_outputs, ?_, ?_⟩
  · intro before g after hgates w hw
    have hready := Gate.InOrder.mem_ready (hgates ▸ p.inOrder)
      (List.mem_append_right before (List.mem_singleton_self g)) hw
    rwa [List.mem_append, List.mem_flatMap] at hready
  · exact ConstraintSystem.validate_eq_ok.mpr (p.canonical.valid_system hsystem)
  · exact numVariables_emit hsystem

theorem canonical_form_of_sample : ∃ C, sample.compile {} = .ok C ∧
    C.circuit.validate = .ok () ∧
      (∀ g ∈ C.circuit.gates, (∃ f, g.op = .quadratic f) ∨ g.op = .split ∨ g.op = .zerop) ∧
      C.circuit.wires.map Wire.id = List.range C.circuit.numVariables ∧
      C.circuit.inputWires.map Wire.id = List.range 2 ∧
      (∀ before g after, C.circuit.gates = before ++ g :: after → ∀ w ∈ g.ins,
        w ∈ C.circuit.inputWires ∨ ∃ a ∈ before, w ∈ a.outs) ∧
      C.circuit.outputs.Pairwise (·.id ≤ ·.id) ∧ C.circuit.outputs.length = 2 ∧
      C.system.validate = .ok () ∧ C.system.numVariables = C.circuit.numVariables := by
  obtain ⟨C, hC⟩ := exists_compile_sample
  exact ⟨C, hC, canonical_form_of_compile hC⟩

end Quadratize.Circuit
