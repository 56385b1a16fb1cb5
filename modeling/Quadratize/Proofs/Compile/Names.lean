import Quadratize.Proofs.Circuit.Alike
import Quadratize.Proofs.Compile.Passes

/-!
# The names of wires

Compilation does not depend on the names of wires.  The passes up to padding keep circuits alike
that differ in names, and the first numbering makes them equal; from there on the two compilations
are the same.
-/

namespace Quadratize.Circuit

variable {c c' k k' : Circuit} {opts : Options}

namespace Passes

/-- Circuits that differ in the names of wires become equal with the first numbering. -/
theorem numbered_eq_of_alike (p : Passes opts c k) (p' : Passes opts c' k') (h : c.Alike c') :
    p.numbered = p'.numbered := by
  obtain ⟨changed, hnormal⟩ := p.normalize
  obtain ⟨changed', hnormal'⟩ := p'.normalize
  obtain ⟨n, hpad⟩ := p.pad
  obtain ⟨n', hpad'⟩ := p'.pad
  obtain ⟨ws, hnumber⟩ := p.number
  obtain ⟨ws', hnumber'⟩ := p'.number
  have hnormalized := h.normalizeInputs p.valid_source.gates hnormal hnormal'
  have hpadded := hnormalized.removeDeadGates.insertPadding p.valid_normal.removeDeadGates.gates
    hpad hpad'
  exact hpadded.renumber p.valid_padded.gates hnumber hnumber'

/-- What follows the first numbering depends on nothing else. -/
theorem eq_of_numbered_eq (p : Passes opts c k) (p' : Passes opts c' k')
    (h : p.numbered = p'.numbered) : k = k' := by
  obtain ⟨n, hsyn⟩ := p.synthesize
  obtain ⟨n', hsyn'⟩ := p'.synthesize
  obtain ⟨ws, hrenumber⟩ := p.renumber
  obtain ⟨ws', hrenumber'⟩ := p'.renumber
  rw [h, hsyn'] at hsyn
  obtain ⟨hquadratic, -⟩ := Prod.mk.inj (Except.ok.inj hsyn)
  have hzero := p.zero
  rw [← hquadratic, p'.zero] at hzero
  rw [← Except.ok.inj hzero, hrenumber'] at hrenumber
  obtain ⟨hdense, -⟩ := Prod.mk.inj (Except.ok.inj hrenumber)
  have hsort := p.sort
  rw [← hdense, p'.sort] at hsort
  exact (Except.ok.inj hsort).symm

end Passes

/-- Two circuits that differ only in the names of wires and both compile have the same canonical
circuit and the same constraints. -/
theorem compile_rename_eq {C C' : Compiled} {f : Wire → Wire}
    (hf : Set.InjOn f {w | w ∈ c.wires}) (h : c.compile opts = .ok C)
    (h' : (c.rename f).compile opts = .ok C') : C = C' := by
  obtain ⟨hsystem, ⟨p⟩⟩ := compile_eq_ok.mp h
  obtain ⟨hsystem', ⟨p'⟩⟩ := compile_eq_ok.mp h'
  have hlike := alike_rename p.valid_source.gates hf
  obtain ⟨k, s⟩ := C
  obtain ⟨k', s'⟩ := C'
  obtain rfl : k = k' := p.eq_of_numbered_eq p' (p.numbered_eq_of_alike p' hlike)
  obtain rfl : s = s' := Except.ok.inj (hsystem.symm.trans hsystem')
  rfl

/-- Turns the order of the wires up to the number 100 around. -/
def mirror (w : Wire) : Wire :=
  ⟨100 - w.id, Nat.lt_of_le_of_lt (Nat.sub_le _ _) (by decide)⟩

theorem compile_rename_mirror_sample :
    ∃ C C', Set.InjOn mirror {w | w ∈ sample.wires} ∧ sample.compile {} = .ok C ∧
      (sample.rename mirror).compile {} = .ok C' ∧ C = C' := by
  have hinj : ∀ v ∈ sample.wires, ∀ w ∈ sample.wires, mirror v = mirror w → v = w := by decide
  have hmirror : Set.InjOn mirror {w | w ∈ sample.wires} := fun v hv w hw he ↦ hinj v hv w hw he
  obtain ⟨C, hC⟩ := exists_compile_sample
  obtain ⟨C', hC', -⟩ := exists_ok_of_any (x := (sample.rename mirror).compile {})
    (P := fun _ ↦ true) (by decide +kernel)
  exact ⟨C, C', hmirror, hC, hC', compile_rename_eq hmirror hC hC'⟩

end Quadratize.Circuit
