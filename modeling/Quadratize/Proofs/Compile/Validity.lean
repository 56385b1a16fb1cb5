import Quadratize.Proofs.Circuit.Layers
import Quadratize.Proofs.Circuit.Padding
import Quadratize.Proofs.Circuit.ZeroGates
import Quadratize.Proofs.Compile.Cycles

/-!
# Validity under the passes

Every pass that goes through keeps valid circuits valid, also on circuits with cycles.  Synthesis
folds linear gates into the forms of their readers, so it asks that no linear gate drives a declared
output and that from every linear gate a chain of linear gates leads to a gate of another kind.
-/

namespace Quadratize.Circuit

variable {c d : Circuit}

/-- A pass takes one circuit to another. -/
inductive Pass : Circuit → Circuit → Prop
  | normalizeInputs {c d : Circuit} {changed : Bool} (h : c.normalizeInputs = .ok (d, changed)) :
    Pass c d
  | removeDeadGates (c : Circuit) : Pass c c.removeDeadGates.1
  | insertPadding {c d : Circuit} {n : Nat} (h : c.insertPadding = .ok (d, n)) : Pass c d
  | renumber {c d : Circuit} {ws : List Wire} (order : WireOrder)
    (h : c.renumber order = .ok (d, ws)) : Pass c d
  | synthesize {c d : Circuit} {n : Nat} (hlinear : c.LinearInside)
    (hleads : ∀ g ∈ c.gates, g.op.isLinear = true → LeadsOut c.gates g)
    (h : c.synthesize = .ok (d, n)) : Pass c d
  | propagateZeros {c d : Circuit} {s : Sweeps} (h : c.propagateZeros = .ok (d, s)) : Pass c d
  | sortGates {c d : Circuit} (h : c.sortGates = .ok d) : Pass c d

/-- One pass keeps a circuit valid. -/
theorem Valid.pass (hc : c.Valid) (h : c.Pass d) : d.Valid := by
  cases h with
  | normalizeInputs h => exact hc.normalizeInputs h
  | removeDeadGates => exact hc.removeDeadGates
  | insertPadding h => exact hc.insertPadding h
  | renumber order h => exact hc.toWellFormed.renumber h
  | synthesize hlinear hleads h => exact (hc.synthesize hlinear hleads h).1
  | propagateZeros h => exact hc.propagateZeros h
  | sortGates h => exact hc.sortGates h

/-- Validation accepts what any passes, one after the other, make of a circuit that it accepts. -/
theorem validate_of_passes (hc : c.validate = .ok ()) (h : Relation.ReflTransGen Pass c d) :
    d.validate = .ok () := by
  have hvalid : d.Valid := by
    induction h with
    | refl => exact validate_eq_ok.mp hc
    | tail _ hpass ih => exact ih.pass hpass
  exact validate_eq_ok.mpr hvalid

/-- The two linear gates of the cycle are folded into the product behind them, and what is left is
valid although it was never put into order. -/
theorem validate_foldedCycle_synthesized : foldedCycle.validate = .ok () ∧
    ∃ d n, foldedCycle.synthesize = .ok (d, n) ∧ Relation.ReflTransGen Pass foldedCycle d ∧
      d.gates.length < foldedCycle.gates.length ∧ d.validate = .ok () := by
  have hvalid : foldedCycle.validate = .ok () := by decide
  have hlinear : foldedCycle.LinearInside := by
    unfold LinearInside
    decide
  -- The difference is read by the product, and the sum by the difference.
  have hsub : LeadsOut foldedCycle.gates ⟨.sub, [2, 4], [3], []⟩ :=
    .read (a := ⟨.mul, [3, 1], [4], []⟩) (w := 3) (by decide) rfl (by decide) (by decide)
  have hadd : LeadsOut foldedCycle.gates ⟨.add, [4, 1], [2], []⟩ :=
    .pass (a := ⟨.sub, [2, 4], [3], []⟩) (w := 2) (by decide) rfl (by decide) (by decide) hsub
  have hleads : ∀ g ∈ foldedCycle.gates, g.op.isLinear = true →
      LeadsOut foldedCycle.gates g := by
    intro g hg hl
    simp only [foldedCycle, List.mem_cons, List.not_mem_nil, or_false] at hg
    rcases hg with rfl | rfl | rfl
    · exact hadd
    · exact hsub
    · cases hl
  obtain ⟨⟨d, n⟩, hd, hlength⟩ := exists_ok_of_any (x := foldedCycle.synthesize)
    (P := fun x ↦ x.1.gates.length < foldedCycle.gates.length) (by decide +kernel)
  have hpass : Relation.ReflTransGen Pass foldedCycle d := .single (.synthesize hlinear hleads hd)
  exact ⟨hvalid, d, n, hd, hpass, of_decide_eq_true hlength, validate_of_passes hvalid hpass⟩

end Quadratize.Circuit
