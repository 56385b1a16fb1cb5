import Quadratize.Proofs.Compile.Canonical

/-!
# Completeness

The witness that evaluation gives satisfies the constraints, unless a value that is split has more
bits than the split has outputs.
-/

namespace Quadratize

/-- A gate whose equation holds meets its constraints, but for a split of a value that does not fit
into its bits. -/
theorem Gate.Holds.constrained_iff {r : Wire → Scalar} {g : Gate} (h : g.Holds r) (hg : g.Shaped)
    (hop : g.op.IsCanonical) :
    g.Constrained r ↔ (g.op = .split → ∀ x ∈ g.ins, (r x).val < 2 ^ g.outs.length) := by
  cases hg with
  | quadratic f ins z note => exact ⟨fun _ ↦ nofun, fun _ ↦ h⟩
  | split x b bs note =>
    have hbits : (b :: bs).map r = (r x).bits (b :: bs).length := h
    have hbit : ∀ u ∈ b :: bs, r u = 0 ∨ r u = 1 := by
      intro u hu
      have hmem : r u ∈ (r x).bits (b :: bs).length := hbits ▸ List.mem_map_of_mem hu
      exact Scalar.eq_zero_or_one_of_mem_bits hmem
    change (∀ u ∈ b :: bs, r u = 0 ∨ r u = 1) ∧ Scalar.bitSum ((b :: bs).map r) = r x ↔ _
    rw [and_iff_right hbit, hbits, Scalar.bitSum_bits_eq_iff]
    exact ⟨fun hlt _ ↦ List.forall_mem_singleton.mpr hlt,
      fun hlt ↦ hlt rfl x (List.mem_singleton_self x)⟩
  | zerop x m y note =>
    have hzero : if r x = 0 then r m = 0 ∧ r y = 0 else r m = (r x)⁻¹ ∧ r y = 1 := h
    refine ⟨fun _ ↦ nofun, fun _ ↦ ?_⟩
    change if r x = 0 then r y = 0 else r m = (r x)⁻¹ ∧ r y = 1
    split_ifs at hzero ⊢
    · exact hzero.2
    · exact hzero
  | _ => rcases hop with ⟨f, hf⟩ | hf | hf <;> cases hf

namespace Circuit

variable {c : Circuit} {opts : Options} {C : Compiled}

/-- Evaluation of a compiled circuit gives a witness with a slot for each variable.  It satisfies
the constraints if and only if every value that is split lies below the power of two for the number
of its bits. -/
theorem verify_evaluate_iff (h : c.compile opts = .ok C) {v : List Scalar}
    (hlength : v.length = c.inputs.length) (hone : v.head? = some 1) :
    ∃ w, C.circuit.evaluate v = .ok w ∧ w.size = C.system.numVariables ∧
      (C.system.verify w = .ok () ↔ ∀ g ∈ C.circuit.gates, g.op = .split → ∀ x ∈ g.ins,
        ∃ a, w.get? x.id = some a ∧ a.val < 2 ^ g.outs.length) := by
  obtain ⟨hsystem, ⟨p⟩⟩ := compile_eq_ok.mp h
  have hk := p.canonical
  obtain ⟨w, heval, hsize, hsat, hins⟩ := hk.evaluate_spec (hlength.trans p.length_inputs.symm)
    fun a ha ↦ Option.some.inj (ha.symm.trans hone)
  refine ⟨w, heval, ?_, ?_⟩
  · rw [hsize, numVariables_emit hsystem]
  · have hfirst : ∀ a ∈ w.get? 0, a = 1 := by
      obtain ⟨x, hx, hwx⟩ : ∃ x, C.circuit.inputWires.head? = some x ∧ w.wire x = 1 := by
        rw [← hins, List.head?_map] at hone
        exact Option.map_eq_some_iff.mp hone
      intro a ha
      have hget := hk.get?_wire hsize.ge (mem_wires_of_input (List.mem_of_head? hx))
      rw [hk.id_of_head hx, ha, hwx] at hget
      exact Option.some.inj hget
    rw [hk.verify_iff hsystem, and_iff_right hsize.ge, and_iff_right hfirst]
    refine forall₂_congr fun g hg ↦ ?_
    rw [(hsat g hg).constrained_iff (hk.gates g hg).shaped (hk.kinds g hg)]
    refine forall_congr' fun _ ↦ forall₂_congr fun x hx ↦ ?_
    rw [hk.get?_wire hsize.ge (mem_wires_of_gate hg (.inl hx))]
    simp

/-- The sum of the inputs of the example is on wire two, the only wire that is split, into two
bits. -/
theorem split_value_sample (hC : sample.compile {} = .ok C) {a : Scalar} {w : Witness}
    (hw : C.circuit.evaluate [1, a] = .ok w) : w.get? 2 = some (1 + a) ∧
      (∀ g ∈ C.circuit.gates, g.op = .split → g.ins = [2] ∧ g.outs.length = 2) ∧
      ∃ g ∈ C.circuit.gates, g.op = .split := by
  obtain ⟨C', hC', hP⟩ := exists_ok_of_any (x := sample.compile {}) (P := fun C ↦ decide
    (⟨.quadratic (.product (.var 0 + .var 1) (.var 0)), [0, 1], [2], []⟩ ∈ C.circuit.gates ∧
      C.circuit.inputWires = [0, 1] ∧
      (∀ g ∈ C.circuit.gates, g.op = .split → g.ins = [2] ∧ g.outs.length = 2) ∧
      ∃ g ∈ C.circuit.gates, g.op = .split)) (by decide +kernel)
  obtain rfl := Except.ok.inj (hC'.symm.trans hC)
  obtain ⟨hsum, hinputs, hsplits⟩ := of_decide_eq_true hP
  obtain ⟨-, ⟨p⟩⟩ := compile_eq_ok.mp hC
  obtain ⟨u, hu, hsize, hsat, hins⟩ := p.canonical.evaluate_spec (v := [1, a])
    p.length_inputs.symm fun b hb ↦ (Option.some.inj hb).symm
  obtain rfl := Except.ok.inj (hu.symm.trans hw)
  have hvalue : u.wire 2 = 1 + a := by
    have hform : u.wire 2 = (QuadForm.product (.var 0 + .var 1) (.var 0)).eval u.wire :=
      hsat _ hsum
    rw [hinputs] at hins
    obtain ⟨hzero, hone⟩ := List.cons.inj hins
    rw [hform, QuadForm.eval_product, Affine.eval_add, Affine.eval_var, Affine.eval_var, hzero,
      (List.cons.inj hone).1, mul_one]
  rw [← hvalue]
  exact ⟨p.canonical.get?_wire hsize.ge (mem_wires_of_gate hsum (.inr (List.mem_singleton_self 2))),
    hsplits⟩

/-- Three fits into two bits, and four does not. -/
theorem verify_evaluate_iff_of_sample : ∃ C w w', sample.compile {} = .ok C ∧
    (C.circuit.evaluate [1, 2] = .ok w ∧ w.size = C.system.numVariables ∧
      C.system.verify w = .ok ()) ∧
    C.circuit.evaluate [1, 3] = .ok w' ∧ w'.size = C.system.numVariables ∧
      C.system.verify w' ≠ .ok () := by
  obtain ⟨C, hC⟩ := exists_compile_sample
  obtain ⟨w, hw, hsize, hverify⟩ :=
    verify_evaluate_iff hC (show [1, 2].length = sample.inputs.length from rfl) rfl
  obtain ⟨w', hw', hsize', hverify'⟩ :=
    verify_evaluate_iff hC (show [1, 3].length = sample.inputs.length from rfl) rfl
  refine ⟨C, w, w', hC, ⟨hw, hsize, hverify.mpr fun g hg hop x hx ↦ ?_⟩, hw', hsize', fun h ↦ ?_⟩
  · obtain ⟨hvalue, hsplits, -⟩ := split_value_sample hC hw
    obtain ⟨hins, houts⟩ := hsplits g hg hop
    obtain rfl := List.mem_singleton.mp (hins ▸ hx)
    refine ⟨1 + 2, hvalue, ?_⟩
    rw [houts]
    decide
  · obtain ⟨hvalue, hsplits, g, hg, hop⟩ := split_value_sample hC hw'
    obtain ⟨hins, houts⟩ := hsplits g hg hop
    obtain ⟨a, ha, hlt⟩ := hverify'.mp h g hg hop 2 (hins ▸ List.mem_singleton_self 2)
    obtain rfl := Option.some.inj (hvalue.symm.trans ha)
    rw [houts] at hlt
    exact absurd hlt (by decide)

end Circuit

end Quadratize
