import Quadratize.Proofs.Circuit.DeadGates
import Quadratize.Proofs.Circuit.Layers
import Quadratize.Proofs.Circuit.Rename
import Quadratize.Proofs.Circuit.Synthesis

/-!
# Reduced circuits

Linear gates that are left in a reduced circuit are read by linear gates only.  If every gate is
needed and the gates are in evaluation order then there are none: the last of them would be read by
a linear gate behind it.
-/

namespace Quadratize

namespace Opcode

@[simp] theorem isLinear_rename (f : Wire → Wire) (op : Opcode) :
    (op.rename f).isLinear = op.isLinear := by
  cases op <;> rfl

theorem IsCanonical.rename {op : Opcode} (h : op.IsCanonical) (f : Wire → Wire) :
    (op.rename f).IsCanonical := by
  rcases h with ⟨q, rfl⟩ | rfl | rfl
  · exact .inl ⟨_, rfl⟩
  · exact .inr (.inl rfl)
  · exact .inr (.inr rfl)

theorem rename_ne_pack {op : Opcode} (h : op ≠ .pack) (f : Wire → Wire) : op.rename f ≠ .pack := by
  cases op with
  | pack => exact absurd rfl h
  | _ => exact nofun

end Opcode

namespace Circuit

variable {c d : Circuit} {f : Wire → Wire}

/-! ## Linear gates and declared outputs -/

theorem LinearInside.rename (h : c.LinearInside) (hf : Set.InjOn f {w | w ∈ c.wires}) :
    (c.rename f).LinearInside := by
  intro g' hg' hlinear w hw hmem
  obtain ⟨g, hg, rfl⟩ := List.mem_map.mp hg'
  obtain ⟨v, hv, rfl⟩ := List.mem_map.mp hw
  obtain ⟨u, hu, he⟩ := List.mem_map.mp hmem
  have hvu : u = v := hf (mem_wires_of_output hu) (mem_wires_of_gate hg (.inr hv)) he
  exact h g hg ((Opcode.isLinear_rename f g.op).symm.trans hlinear) v hv (hvu ▸ hu)

/-! ## Passes that keep circuits reduced -/

theorem Reduced.removeDeadGates (h : c.Reduced) : c.removeDeadGates.1.Reduced := by
  have hsub {g : Gate} (hg : g ∈ c.removeDeadGates.1.gates) : g ∈ c.gates :=
    (gates_removeDeadGates_sublist c).subset hg
  exact ⟨fun g hg ↦ h.kind g (hsub hg), fun g hg ↦ h.outputs g (hsub hg),
    fun g hg hl w hw a ha ↦ h.readers g (hsub hg) hl w hw a (hsub ha)⟩

theorem Reduced.rename (h : c.Reduced) (hf : Set.InjOn f {w | w ∈ c.wires}) :
    (c.rename f).Reduced := by
  refine ⟨fun g' hg' ↦ ?_, LinearInside.rename h.outputs hf, fun g' hg' hl w hw a' ha' hwa ↦ ?_⟩
  · obtain ⟨g, hg, rfl⟩ := List.mem_map.mp hg'
    exact (h.kind g hg).imp (fun hl ↦ (Opcode.isLinear_rename f g.op).trans hl) (·.rename f)
  · obtain ⟨g, hg, rfl⟩ := List.mem_map.mp hg'
    obtain ⟨a, ha, rfl⟩ := List.mem_map.mp ha'
    obtain ⟨v, hv, rfl⟩ := List.mem_map.mp hw
    obtain ⟨u, hu, he⟩ := List.mem_map.mp hwa
    have hvu : u = v := hf (mem_wires_of_gate ha (.inl hu)) (mem_wires_of_gate hg (.inr hv)) he
    refine (Opcode.isLinear_rename f a.op).trans ?_
    exact h.readers g hg ((Opcode.isLinear_rename f g.op).symm.trans hl) v hv a ha (hvu ▸ hu)

theorem Reduced.of_perm (h : c.Reduced) (hgates : d.gates.Perm c.gates)
    (houtputs : d.outputs.Perm c.outputs) : d.Reduced := by
  have hmem {g : Gate} (hg : g ∈ d.gates) : g ∈ c.gates := hgates.mem_iff.mp hg
  exact ⟨fun g hg ↦ h.kind g (hmem hg),
    fun g hg hl w hw ho ↦ h.outputs g (hmem hg) hl w hw (houtputs.mem_iff.mp ho),
    fun g hg hl w hw a ha ↦ h.readers g (hmem hg) hl w hw a (hmem ha)⟩

/-! ## Live gates -/

theorem live_of_removeDeadGates (c : Circuit) : c.removeDeadGates.1.Live :=
  fun _ hg ↦ live_removeDeadGates hg

theorem Live.rename (h : c.Live) (f : Wire → Wire) : (c.rename f).Live := by
  intro g' hg'
  obtain ⟨g, hg, rfl⟩ := List.mem_map.mp hg'
  obtain ⟨w, hw, huse⟩ := h g hg
  refine ⟨f w, List.mem_map_of_mem hw, huse.imp List.mem_map_of_mem fun ⟨a, ha, hwa⟩ ↦ ?_⟩
  exact ⟨a.rename f, List.mem_map_of_mem ha, List.mem_map_of_mem hwa⟩

theorem Live.of_perm (h : c.Live) (hgates : d.gates.Perm c.gates)
    (houtputs : d.outputs.Perm c.outputs) : d.Live := by
  intro g hg
  obtain ⟨w, hw, huse⟩ := h g (hgates.mem_iff.mp hg)
  exact ⟨w, hw, huse.imp houtputs.mem_iff.mpr fun ⟨a, ha, hwa⟩ ↦ ⟨a, hgates.mem_iff.mpr ha, hwa⟩⟩

end Circuit

/-! ## No linear gate is left -/

theorem Circuit.Reduced.isCanonical {c : Circuit} (h : c.Reduced) (hlive : c.Live)
    (horder : Gate.InOrder Gate.ins c.inputWires c.gates) (hnodup : c.driven.Nodup) :
    ∀ g ∈ c.gates, g.op.IsCanonical := by
  -- From the back: if there is no linear gate behind a gate then it is not linear.
  have hback (after before : List Gate) (heq : c.gates = before ++ after) :
      ∀ g ∈ after, g.op.isLinear = false := by
    induction after generalizing before with
    | nil => exact nofun
    | cons g after ih =>
      have hafter := ih (before ++ [g]) (by simpa using heq)
      refine List.forall_mem_cons.mpr ⟨Bool.eq_false_iff.mpr fun hl ↦ ?_, hafter⟩
      have hg : g ∈ c.gates := heq ▸ List.mem_append_right _ List.mem_cons_self
      obtain ⟨w, hw, hout | ⟨a, ha, hwa⟩⟩ := hlive g hg
      · exact h.outputs g hg hl w hw hout
      · have hal := h.readers g hg hl w hw a ha hwa
        have hmem : a ∈ before ++ [g] := by
          rw [heq, List.append_cons] at ha
          exact (List.mem_append.mp ha).resolve_right fun hmem ↦ by
            rw [hafter a hmem] at hal
            cases hal
        have hready := Gate.InOrder.mem_ready (heq ▸ horder) hmem hwa
        rw [driven, heq, List.flatMap_append, ← List.append_assoc, List.flatMap_cons] at hnodup
        exact (List.nodup_append.mp hnodup).2.2 w hready w (List.mem_append_left _ hw) rfl
  intro g hg
  refine (h.kind g hg).resolve_left fun hl ↦ ?_
  rw [hback c.gates [] rfl g hg] at hl
  cases hl

end Quadratize
