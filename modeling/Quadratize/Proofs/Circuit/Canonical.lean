import Quadratize.Proofs.Circuit.Emit
import Quadratize.Proofs.Circuit.Evaluate
import Quadratize.Proofs.Circuit.Rename

/-!
# Canonical circuits

In a canonical circuit the gates are quadratic gates, splits and zero tests in evaluation order, and
wires are numbered without gaps from the primary inputs on.  Such a circuit can be evaluated on all
values of its primary inputs, and the slots of a witness are its wires.
-/

namespace Quadratize.Circuit

/-- A circuit in canonical form. -/
structure Canonical (k : Circuit) : Prop extends k.Valid where
  kinds : ∀ g ∈ k.gates, g.op.IsCanonical
  order : Gate.InOrder Gate.ins k.inputWires k.gates
  wireIds : k.wires.map Wire.id = List.range k.numVariables
  inputIds : k.inputWires.map Wire.id = List.range k.inputs.length

namespace Canonical

variable {k : Circuit} (h : k.Canonical)
include h

/-! ## Slots -/

theorem id_lt {x : Wire} (hx : x ∈ k.wires) : x.id < k.numVariables := by
  have hmem : x.id ∈ k.wires.map Wire.id := List.mem_map_of_mem hx
  rw [h.wireIds] at hmem
  exact List.mem_range.mp hmem

theorem exists_wire {i : Nat} (hi : i < k.numVariables) : ∃ x ∈ k.wires, x.id = i := by
  have hmem : i ∈ k.wires.map Wire.id := h.wireIds ▸ List.mem_range.mpr hi
  exact List.mem_map.mp hmem

theorem idBound_eq : k.idBound = k.numVariables := by
  rcases Nat.eq_zero_or_pos k.numVariables with hzero | hpos
  · rw [idBound, maxWire?, List.length_eq_zero_iff.mp hzero, hzero]
    rfl
  · obtain ⟨x, hx, hid⟩ := h.exists_wire (Nat.sub_lt hpos Nat.one_pos)
    have hlower := id_lt_idBound hx
    have hupper : k.idBound ≤ k.numVariables := by
      unfold idBound
      cases hmax : k.maxWire? with
      | none => exact Nat.zero_le _
      | some v => exact h.id_lt (List.mem_of_getLast? hmax)
    omega

/-- The first slot belongs to the first primary input. -/
theorem id_of_head {x : Wire} (hx : k.inputWires.head? = some x) : x.id = 0 := by
  have hids := congrArg List.head? h.inputIds
  rw [List.head?_map, hx] at hids
  have hmem := List.mem_of_head? hids.symm
  cases hn : k.inputs.length with
  | zero =>
    rw [hn] at hmem
    cases hmem
  | succ n =>
    rw [hn, List.range_succ_eq_map] at hids
    exact Option.some.inj hids

/-! ## Evaluation -/

theorem inOrder_reads : Gate.InOrder Gate.reads k.inputWires k.gates :=
  h.order.of_subset fun g hg _ hw ↦ (h.gates g hg).mem_ins hw

/-- Assignments that satisfy the circuit are determined by the primary inputs. -/
theorem eq_of_satisfies {r q : Wire → Scalar} (hr : k.Satisfies r) (hq : k.Satisfies q)
    (hinputs : ∀ x ∈ k.inputWires, r x = q x) : ∀ x ∈ k.wires, r x = q x := by
  intro x hx
  exact Gate.agree_of_inOrder (fun g hg ↦ (h.gates g hg).shaped) h.inOrder_reads hr hq hinputs x
    (h.toValid.mem_wires.mp hx)

/-- A canonical circuit can be evaluated on all values of its primary inputs that start with one;
the witness satisfies the circuit. -/
theorem evaluate_spec {v : List Scalar} (hlength : v.length = k.inputs.length)
    (hhead : ∀ a ∈ v.head?, a = 1) :
    ∃ w, k.evaluate v = .ok w ∧ w.size = k.numVariables ∧ k.Satisfies w.wire ∧
      k.inputWires.map w.wire = v := by
  have hgates : ∀ g ∈ k.gates, g.Shaped ∧ g.Evaluable := by
    intro g hg
    refine ⟨(h.gates g hg).shaped, (h.kinds g hg).not_isLinear, ?_⟩
    rcases h.kinds g hg with ⟨f, hf⟩ | hf | hf <;> rw [hf] <;> exact nofun
  obtain ⟨w, r, heval, hsize, hsat, hins, hget⟩ :=
    Circuit.evaluate_spec hgates h.nodup h.inOrder_reads hlength hhead
  have hwire : ∀ x ∈ k.wires, r x = w.wire x := by
    intro x hx
    have hx := hget x hx
    exact (congrArg (Option.getD · 0) hx).symm
  refine ⟨w, heval, hsize.trans h.idBound_eq, (satisfies_congr h.gates hwire).mp hsat, ?_⟩
  rw [← hins]
  exact List.map_congr_left fun x hx ↦ (hwire x (mem_wires_of_input hx)).symm

theorem get?_wire {w : Witness} (hsize : k.numVariables ≤ w.size) {x : Wire} (hx : x ∈ k.wires) :
    w.get? x.id = some (w.wire x) :=
  Witness.get?_of_lt (w := w) (i := slotOf (some x)) ((h.id_lt hx).trans_le hsize)

/-! ## Constraints -/

theorem valid_system {s : ConstraintSystem} (hs : k.emit = .ok s) : s.Valid :=
  valid_emit h.gates (fun _ hx ↦ h.id_lt hx) hs

theorem verify_iff {s : ConstraintSystem} {w : Witness} (hs : k.emit = .ok s) :
    s.verify w = .ok () ↔ k.numVariables ≤ w.size ∧
      (∀ a ∈ w.get? 0, a = 1) ∧ ∀ g ∈ k.gates, g.Constrained w.wire := by
  constructor
  · intro hw
    have hsize : k.numVariables ≤ w.size :=
      numVariables_emit hs ▸ (ConstraintSystem.verify_eq_ok.mp hw).1
    exact ⟨hsize, (verify_emit h.gates (fun _ hx ↦ h.id_lt hx) hs h.kinds hsize).mp hw⟩
  · rintro ⟨hsize, hw⟩
    exact (verify_emit h.gates (fun _ hx ↦ h.id_lt hx) hs h.kinds hsize).mpr hw

end Canonical

end Quadratize.Circuit
