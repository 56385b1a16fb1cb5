import Mathlib.Data.List.Nodup
import Mathlib.Data.Set.Function
import Quadratize.Proofs.Circuit.Valid

/-!
# Renaming wires

Renaming that keeps distinct wires apart keeps circuits valid, and every assignment that satisfies
a circuit can be carried over to the renamed circuit.
-/

namespace Quadratize

theorem Gate.WellFormed.rename {g : Gate} (h : g.WellFormed) (f : Wire → Wire) :
    (g.rename f).WellFormed := by
  refine ⟨h.shaped.rename f, fun w hw ↦ ?_⟩
  have hform := h.form
  obtain ⟨op, ins, outs, note⟩ := g
  cases op with
  | quadratic form =>
    obtain ⟨v, hv, rfl⟩ := QuadForm.mem_wires_rename hw
    exact List.mem_map_of_mem (hform v hv)
  | _ => cases hw

theorem Opcode.rename_rename (f h : Wire → Wire) (op : Opcode) :
    (op.rename f).rename h = op.rename (h ∘ f) := by
  cases op with
  | quadratic form => exact congrArg quadratic (QuadForm.rename_rename f h form)
  | _ => rfl

theorem Opcode.name_rename (f : Wire → Wire) (op : Opcode) : (op.rename f).name = op.name := by
  cases op <;> rfl

theorem Gate.op_rename (f : Wire → Wire) (g : Gate) : (g.rename f).op = g.op.rename f :=
  rfl

theorem Gate.rename_rename (f h : Wire → Wire) (g : Gate) :
    (g.rename f).rename h = g.rename (h ∘ f) := by
  simp only [rename, Opcode.rename_rename, List.map_map]

/-- Renaming depends only on what becomes of the wires of the gate. -/
theorem Gate.WellFormed.rename_congr {g : Gate} (hg : g.WellFormed) {f h : Wire → Wire}
    (hwires : ∀ w ∈ g.ins ++ g.outs, f w = h w) : g.rename f = g.rename h := by
  have hform := hg.form
  obtain ⟨op, ins, outs, note⟩ := g
  obtain ⟨hins, houts⟩ := List.forall_mem_append.mp hwires
  have hop : op.rename f = op.rename h := by
    cases op with
    | quadratic form =>
      exact congrArg Opcode.quadratic (QuadForm.rename_congr fun w hw ↦ hins w (hform w hw))
    | _ => rfl
  rw [Gate.rename, Gate.rename, hop, List.map_congr_left hins, List.map_congr_left houts]

namespace Circuit

variable {c : Circuit} {f : Wire → Wire}

theorem rename_rename (f h : Wire → Wire) (c : Circuit) :
    (c.rename f).rename h = c.rename (h ∘ f) := by
  have hgate : Gate.rename h ∘ Gate.rename f = Gate.rename (h ∘ f) :=
    funext fun g ↦ Gate.rename_rename f h g
  simp only [rename, List.map_map, hgate]
  rfl

theorem rename_congr (hc : ∀ g ∈ c.gates, g.WellFormed) {h : Wire → Wire}
    (hwires : ∀ w ∈ c.wires, f w = h w) : c.rename f = c.rename h := by
  unfold rename
  congr 1
  · refine List.map_congr_left fun i hi ↦ ?_
    rw [hwires i.wire (mem_wires_of_input (List.mem_map_of_mem hi))]
  · refine List.map_congr_left fun g hg ↦ (hc g hg).rename_congr fun w hw ↦ ?_
    exact hwires w (mem_wires_of_gate hg (List.mem_append.mp hw))
  · exact List.map_congr_left fun w hw ↦ hwires w (mem_wires_of_output hw)

@[simp] theorem inputWires_rename (f : Wire → Wire) (c : Circuit) :
    (c.rename f).inputWires = c.inputWires.map f := by
  simp [inputWires, rename, Function.comp_def]

@[simp] theorem driven_rename (f : Wire → Wire) (c : Circuit) :
    (c.rename f).driven = c.driven.map f := by
  rw [driven, inputWires_rename, driven, List.map_append, List.map_flatMap]
  simp [rename, Gate.rename, List.flatMap_map]

theorem mem_wires_rename {w : Wire} : w ∈ (c.rename f).wires ↔ ∃ v ∈ c.wires, f v = w := by
  have hlist : (c.rename f).inputWires ++ (c.rename f).outputs ++
        (c.rename f).gates.flatMap (fun g ↦ g.ins ++ g.outs) =
      (c.inputWires ++ c.outputs ++ c.gates.flatMap fun g ↦ g.ins ++ g.outs).map f := by
    rw [inputWires_rename, List.map_append, List.map_append, List.map_flatMap]
    simp [rename, Gate.rename, List.flatMap_map]
  simp only [wires, Wire.mem_ascending, hlist, List.mem_map]

/-- Renaming that is injective on the wires of a valid circuit gives a valid circuit. -/
theorem Valid.rename (h : c.Valid) (hf : Set.InjOn f {w | w ∈ c.wires}) : (c.rename f).Valid := by
  refine ⟨⟨?_, ?_, ?_⟩, ?_⟩
  · intro g hg
    obtain ⟨g₀, hg₀, rfl⟩ := List.mem_map.mp hg
    exact (h.gates g₀ hg₀).rename f
  · rw [driven_rename]
    exact h.nodup.map_on fun v hv w hw he ↦
      hf (mem_wires_of_driven hv) (mem_wires_of_driven hw) he
  · intro w hw
    obtain ⟨v, hv, rfl⟩ := List.mem_map.mp hw
    rw [driven_rename]
    exact List.mem_map_of_mem (h.outputs v hv)
  · intro g hg w hw
    obtain ⟨g₀, hg₀, rfl⟩ := List.mem_map.mp hg
    obtain ⟨v, hv, rfl⟩ := List.mem_map.mp hw
    rw [driven_rename]
    exact List.mem_map_of_mem (h.reads g₀ hg₀ v hv)

/-! ## Assignments -/

/-- Whether an assignment satisfies a circuit depends only on the wires of the circuit. -/
theorem satisfies_congr (hc : ∀ g ∈ c.gates, g.WellFormed) {r q : Wire → Scalar}
    (h : ∀ w ∈ c.wires, r w = q w) : c.Satisfies r ↔ c.Satisfies q := by
  refine forall₂_congr fun g hg ↦ Gate.holds_congr (hc g hg).shaped (fun w hw ↦ ?_) fun w hw ↦ ?_
  · exact h w (mem_wires_of_gate hg (.inl ((hc g hg).mem_ins hw)))
  · exact h w (mem_wires_of_gate hg (.inr hw))

theorem satisfies_rename (hc : ∀ g ∈ c.gates, g.WellFormed) (r : Wire → Scalar) :
    (c.rename f).Satisfies r ↔ c.Satisfies (r ∘ f) := by
  simp only [Satisfies, rename, List.forall_mem_map]
  exact forall₂_congr fun g hg ↦ Gate.holds_rename (hc g hg).shaped r f

/-- An assignment is carried over by reading it at the old names of wires. -/
theorem Satisfies.exists_rename {r : Wire → Scalar} (h : c.Satisfies r)
    (hc : ∀ g ∈ c.gates, g.WellFormed) (hf : Set.InjOn f {w | w ∈ c.wires}) :
    ∃ q, (c.rename f).Satisfies q ∧ ∀ w ∈ c.wires, q (f w) = r w := by
  have hq : ∀ w ∈ c.wires, (r ∘ Function.invFunOn f {w | w ∈ c.wires}) (f w) = r w := by
    intro w hw
    exact congrArg r (hf.leftInvOn_invFunOn hw)
  refine ⟨_, (satisfies_rename hc _).mpr ?_, hq⟩
  exact (satisfies_congr hc hq).mpr h

end Circuit

end Quadratize
