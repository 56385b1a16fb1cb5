import Quadratize.Proofs.Compile.Success

/-!
# Circuits with cycles

A compilation whose numbering waits for all inputs of a gate goes through only if the gates of the
circuit can be put into evaluation order: no pass before the numbering opens a cycle.  A numbering
that follows the first input of a gate does not see cycles.  Then the last pass rejects those that
are left, but a cycle through linear gates may have vanished when these were folded.
-/

namespace Quadratize.Circuit

variable {c k : Circuit} {opts : Options}

namespace Passes

variable (p : Passes opts c k)
include p

theorem synthesized_eq : c.synthesized opts = .ok p.quadratic := by
  obtain ⟨changed, hnormal⟩ := p.normalize
  obtain ⟨n, hpad⟩ := p.pad
  obtain ⟨ws, hnumber⟩ := p.number
  obtain ⟨m, hsyn⟩ := p.synthesize
  refine bind_eq_ok.mpr ⟨(), mapError_eq_ok.mpr p.validate, ?_⟩
  refine bind_eq_ok.mpr ⟨_, mapError_eq_ok.mpr hnormal, ?_⟩
  refine bind_eq_ok.mpr ⟨_, mapError_eq_ok.mpr hpad, ?_⟩
  exact bind_eq_ok.mpr ⟨_, mapError_eq_ok.mpr hnumber, bind_eq_ok.mpr ⟨_, hsyn, rfl⟩⟩

/-- If the numbering waits for all inputs then the passes go through only without cycles. -/
theorem acyclic (hopts : opts.wireOrder = .allInputsReady) : c.Acyclic := by
  obtain ⟨changed, hnormal⟩ := p.normalize
  obtain ⟨n, hpad⟩ := p.pad
  obtain ⟨ws, hnumber⟩ := p.number
  rw [hopts] at hnumber
  have hpadded : p.padded.Acyclic := p.valid_padded.exists_renumber_iff.mp ⟨_, ws, hnumber⟩
  have hlive := (acyclic_insertPadding p.valid_normal.removeDeadGates hpad).mp hpadded
  exact (acyclic_normalizeInputs hnormal).mp (acyclic_removeDeadGates.mp hlive)

/-- The last pass goes through only if zero propagation has left no cycle. -/
theorem acyclic_zeroed : p.zeroed.Acyclic := by
  obtain ⟨ws, hrenumber⟩ := p.renumber
  obtain ⟨hnum, hdense⟩ := renumber_eq_ok.mp hrenumber
  obtain ⟨-, hgates, hinOrder, -⟩ := sortGates_spec p.sort
  have horder : p.dense.Orderable := ⟨k.gates, hgates, hinOrder⟩
  have hacyclic := horder.acyclic p.valid_dense.nodup
  rw [hdense, acyclic_rename (injOn_renumber hnum)] at hacyclic
  exact acyclic_removeDeadGates.mp hacyclic

end Passes

/-- A valid circuit whose gates cannot be put into evaluation order is rejected if the numbering
waits for all inputs, and in any case if a cycle is left after synthesis and zero propagation. -/
theorem compile_of_not_orderable (hvalid : c.validate = .ok ()) (hcycle : ¬c.Orderable)
    (hleft : opts.wireOrder = .allInputsReady ∨ ∃ q z, c.synthesized opts = .ok q ∧
      q.zeroStep opts = .ok z ∧ ¬z.Acyclic) : ∃ e, c.compile opts = .error e := by
  cases h : c.compile opts with
  | error e => exact ⟨e, rfl⟩
  | ok C =>
    obtain ⟨-, ⟨p⟩⟩ := compile_eq_ok.mp h
    rcases hleft with hopts | ⟨q, z, hq, hz, hz'⟩
    · exact absurd ((validate_eq_ok.mp hvalid).orderable_iff.mpr (p.acyclic hopts)) hcycle
    · obtain rfl := Except.ok.inj (p.synthesized_eq.symm.trans hq)
      obtain rfl := Except.ok.inj (p.zero.symm.trans hz)
      exact absurd p.acyclic_zeroed hz'

/-- Two linear gates and a product on a cycle.  The difference of the two sums on the cycle does not
depend on it: `(z + x - z) * x` drives `z`. -/
def foldedCycle : Circuit where
  inputs := [⟨0, oneMark⟩, ⟨1, []⟩]
  gates := [⟨.add, [4, 1], [2], []⟩, ⟨.sub, [2, 4], [3], []⟩, ⟨.mul, [3, 1], [4], []⟩]
  outputs := [4]

theorem foldedCycle_not_orderable : foldedCycle.validate = .ok () ∧ ¬foldedCycle.Orderable := by
  have hvalid : foldedCycle.validate = .ok () := by decide
  have hc := validate_eq_ok.mp hvalid
  refine ⟨hvalid, fun horder ↦ ?_⟩
  obtain ⟨ws, hws⟩ := hc.exists_numbering_iff.mpr (horder.acyclic hc.nodup)
  have herror : (foldedCycle.numbering .allInputsReady).toOption = none := by decide +kernel
  rw [hws] at herror
  cases herror

theorem compile_foldedCycle_rejected :
    (foldedCycle.validate = .ok () ∧ ¬foldedCycle.Orderable) ∧
      ∃ e, foldedCycle.compile {} = .error e :=
  ⟨foldedCycle_not_orderable,
    compile_of_not_orderable foldedCycle_not_orderable.1 foldedCycle_not_orderable.2 (.inl rfl)⟩

/-- A numbering that follows the first input lets the cycle through. -/
theorem compile_foldedCycle_accepted :
    foldedCycle.validate = .ok () ∧ ¬foldedCycle.Orderable ∧
      ∃ C, foldedCycle.compile { wireOrder := .firstReadyInput } = .ok C := by
  obtain ⟨C, hC, -⟩ := exists_ok_of_any
    (x := foldedCycle.compile { wireOrder := .firstReadyInput }) (P := fun _ ↦ true)
    (by decide +kernel)
  exact ⟨foldedCycle_not_orderable.1, foldedCycle_not_orderable.2, C, hC⟩

end Quadratize.Circuit
