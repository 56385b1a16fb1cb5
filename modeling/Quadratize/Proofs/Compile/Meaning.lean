import Quadratize.Proofs.Compile.Canonical

/-!
# Meaning

Compilation preserves meaning: the compiled circuit computes, from the primary inputs of every
assignment that satisfies the source, the values of the declared outputs.
-/

namespace Quadratize.Circuit

variable {c k : Circuit} {opts : Options} {C : Compiled} {r : Wire → Scalar}

/-- An assignment that satisfies the source carries over to the canonical circuit. -/
theorem Passes.exists_satisfies (p : Passes opts c k) (hr : c.Satisfies r)
    (hone : (c.constantFirst (c.inputWires.map r)).head? = some 1) :
    ∃ q, k.Satisfies q ∧ k.inputWires.map q = c.constantFirst (c.inputWires.map r) ∧
      p.dense.outputs.map q = c.outputs.map r := by
  obtain ⟨q, hq, hins, houts⟩ := p.relates ⟨r, hr, rfl, rfl⟩ hone
  refine ⟨q, fun g hg ↦ hq g ((sortGates_spec p.sort).2.1.mem_iff.mp hg), ?_, houts⟩
  rw [inputWires_sortGates p.sort, hins]

/-- The witness for the primary inputs of an assignment holds its values, on every wire of the
canonical circuit. -/
theorem Canonical.evaluate_of_satisfies (hk : k.Canonical) (hr : k.Satisfies r)
    (hone : ∀ a ∈ (k.inputWires.map r).head?, a = 1) :
    ∃ w, k.evaluate (k.inputWires.map r) = .ok w ∧ ∀ x ∈ k.wires, w.get? x.id = some (r x) := by
  have hlength : (k.inputWires.map r).length = k.inputs.length := by
    rw [List.length_map, inputWires, List.length_map]
  obtain ⟨w, heval, hsize, hsat, hins⟩ := hk.evaluate_spec hlength hone
  refine ⟨w, heval, fun x hx ↦ ?_⟩
  rw [hk.get?_wire hsize.ge hx, hk.eq_of_satisfies hsat hr (List.map_inj_left.mp hins) x hx]

/-- Compilation preserves meaning.  If an assignment satisfies the source and is one on the constant
input then the compiled circuit can be evaluated on its primary inputs, the constant input in front,
and its declared outputs have the values that they have in the source, up to their order; in the
same order if the declared outputs are distinct and none of them is a primary input. -/
theorem compile_preserves_meaning (h : c.compile opts = .ok C) (hr : c.Satisfies r)
    (hone : ∀ i ∈ c.constantInput?, r i.wire = 1) :
    ∃ w, C.circuit.evaluate (c.constantFirst (c.inputWires.map r)) = .ok w ∧
      (C.circuit.outputs.map fun o ↦ w.get? o.id).Perm (c.outputs.map fun o ↦ some (r o)) ∧
      (c.outputs.Nodup → (∀ o ∈ c.outputs, o ∉ c.inputWires) →
        (C.circuit.outputs.map fun o ↦ w.get? o.id) = c.outputs.map fun o ↦ some (r o)) := by
  obtain ⟨-, ⟨p⟩⟩ := compile_eq_ok.mp h
  have hhead : (c.constantFirst (c.inputWires.map r)).head? = some 1 := by
    obtain ⟨i, hi⟩ := exists_constantInput? p.inputs_ne_nil
    rw [inputWires, List.map_map, head?_constantFirst, hi, Option.map_some]
    exact congrArg some (hone i hi)
  obtain ⟨q, hq, hins, houts⟩ := p.exists_satisfies hr hhead
  have hfirst : ∀ a ∈ (C.circuit.inputWires.map q).head?, a = 1 := by
    rw [hins, hhead]
    exact fun a ha ↦ (Option.some.inj ha).symm
  obtain ⟨w, heval, hget⟩ := p.canonical.evaluate_of_satisfies hq hfirst
  have hvalues : (C.circuit.outputs.map fun o ↦ w.get? o.id) = C.circuit.outputs.map (some ∘ q) :=
    List.map_congr_left fun o ho ↦ hget o (mem_wires_of_output ho)
  have hdense : p.dense.outputs.map (some ∘ q) = c.outputs.map fun o ↦ some (r o) := by
    rw [← List.map_map, houts, List.map_map]
    rfl
  refine ⟨w, hins ▸ heval, ?_, fun hnodup hinputs ↦ ?_⟩
  · rw [hvalues, ← hdense]
    exact (outputs_sortGates_perm p.sort).map _
  · rw [hvalues, ← hdense, p.outputs_eq ⟨hnodup, hinputs⟩]

/-- An assignment to the wires of the example: the input is zero and the sum one. -/
def sampleValues (x : Wire) : Scalar :=
  if x.id = 1 ∨ x.id = 5 ∨ x.id = 8 then 0 else 1

theorem sample_preserves_meaning : ∃ C w, sample.compile {} = .ok C ∧
    sample.Satisfies sampleValues ∧ C.circuit.evaluate [1, 0] = .ok w ∧
    (C.circuit.outputs.map fun o ↦ w.get? o.id) = [some 0, some 1] := by
  obtain ⟨C, hC⟩ := exists_compile_sample
  have hsat : sample.Satisfies sampleValues := by
    simp only [Satisfies, sample, List.forall_mem_cons]
    refine ⟨?_, ?_, ?_, ?_, List.forall_mem_nil _⟩
    · change (1 : Scalar) = 0 + 1
      decide
    · change [(1 : Scalar), 0] = (1 : Scalar).bits 2
      decide
    · change if (1 : Scalar) = 0 then (1 : Scalar) = 0 ∧ (1 : Scalar) = 0 else
        (1 : Scalar) = (1 : Scalar)⁻¹ ∧ (1 : Scalar) = 1
      rw [if_neg (by decide), inv_one]
      exact ⟨rfl, rfl⟩
    · change (0 : Scalar) = 1 * 0
      decide
  obtain ⟨w, heval, -, houts⟩ := compile_preserves_meaning hC hsat (by decide)
  exact ⟨C, w, hC, hsat, heval, houts (by decide) (by decide)⟩

end Quadratize.Circuit
