import Quadratize.Circuit.Valid
import Quadratize.Proofs.Circuit.Holds
import Quadratize.Proofs.Except
import Quadratize.Proofs.Wire

/-!
# Valid circuits

Validation accepts a circuit exactly if it is valid: gates are well formed, no wire is assigned
twice, and every declared output and every input of a gate is assigned.
-/

namespace Quadratize

/-- A gate with the wires of its kind, whose form mentions only its inputs. -/
structure Gate.WellFormed (g : Gate) : Prop where
  shaped : g.Shaped
  form : ∀ w ∈ g.formWires, w ∈ g.ins

theorem Gate.WellFormed.mem_ins {g : Gate} (h : g.WellFormed) {w : Wire} (hw : w ∈ g.reads) :
    w ∈ g.ins := by
  have hform := h.form
  unfold Gate.formWires at hform
  unfold Gate.reads at hw
  split at hw
  · rename_i f hop
    rw [hop] at hform
    exact hform w hw
  · exact hw

namespace Circuit

/-- The wires that are assigned: the primary inputs and the outputs of gates. -/
def driven (c : Circuit) : List Wire :=
  c.inputWires ++ c.gates.flatMap Gate.outs

/-- A circuit that is valid but for wires that gates read without their being assigned. -/
structure WellFormed (c : Circuit) : Prop where
  gates : ∀ g ∈ c.gates, g.WellFormed
  nodup : c.driven.Nodup
  outputs : ∀ w ∈ c.outputs, w ∈ c.driven

/-- A valid circuit. -/
structure Valid (c : Circuit) : Prop extends c.WellFormed where
  reads : ∀ g ∈ c.gates, ∀ w ∈ g.ins, w ∈ c.driven

theorem mem_driven {c : Circuit} {w : Wire} :
    w ∈ c.driven ↔ w ∈ c.inputWires ∨ ∃ g ∈ c.gates, w ∈ g.outs := by
  rw [driven, List.mem_append, List.mem_flatMap]

theorem mem_wires {c : Circuit} {w : Wire} :
    w ∈ c.wires ↔ w ∈ c.inputWires ∨ w ∈ c.outputs ∨ ∃ g ∈ c.gates, w ∈ g.ins ∨ w ∈ g.outs := by
  simp only [wires, Wire.mem_ascending, List.mem_append, List.mem_flatMap, or_assoc]

theorem mem_wires_of_input {c : Circuit} {w : Wire} (h : w ∈ c.inputWires) : w ∈ c.wires :=
  mem_wires.mpr (.inl h)

theorem mem_wires_of_output {c : Circuit} {w : Wire} (h : w ∈ c.outputs) : w ∈ c.wires :=
  mem_wires.mpr (.inr (.inl h))

theorem mem_wires_of_gate {c : Circuit} {g : Gate} {w : Wire} (hg : g ∈ c.gates)
    (h : w ∈ g.ins ∨ w ∈ g.outs) : w ∈ c.wires :=
  mem_wires.mpr (.inr (.inr ⟨g, hg, h⟩))

theorem mem_wires_of_driven {c : Circuit} {w : Wire} (h : w ∈ c.driven) : w ∈ c.wires := by
  rcases mem_driven.mp h with h | ⟨g, hg, hw⟩
  · exact mem_wires_of_input h
  · exact mem_wires_of_gate hg (.inr hw)

/-- The wires of a valid circuit are the assigned ones. -/
theorem Valid.mem_wires {c : Circuit} (h : c.Valid) {w : Wire} : w ∈ c.wires ↔ w ∈ c.driven := by
  refine ⟨fun hw ↦ ?_, mem_wires_of_driven⟩
  rcases Circuit.mem_wires.mp hw with hw | hw | ⟨g, hg, hw | hw⟩
  · exact mem_driven.mpr (.inl hw)
  · exact h.outputs w hw
  · exact h.reads g hg w hw
  · exact mem_driven.mpr (.inr ⟨g, hg, hw⟩)

/-- Validity does not depend on the order of primary inputs, gates and declared outputs. -/
theorem Valid.of_perm {c d : Circuit} (h : c.Valid) (hinputs : d.inputWires.Perm c.inputWires)
    (hgates : d.gates.Perm c.gates) (houtputs : ∀ w ∈ d.outputs, w ∈ c.outputs) : d.Valid := by
  have hdriven : d.driven.Perm c.driven := hinputs.append (hgates.flatMap_right Gate.outs)
  refine ⟨⟨fun g hg ↦ ?_, ?_, fun w hw ↦ ?_⟩, fun g hg w hw ↦ ?_⟩
  · exact h.gates g (hgates.mem_iff.mp hg)
  · exact hdriven.nodup_iff.mpr h.nodup
  · exact hdriven.mem_iff.mpr (h.outputs w (houtputs w hw))
  · exact hdriven.mem_iff.mpr (h.reads g (hgates.mem_iff.mp hg) w hw)

/-- No linear gate drives a declared output. -/
def LinearInside (c : Circuit) : Prop :=
  ∀ g ∈ c.gates, g.op.isLinear = true → ∀ w ∈ g.outs, w ∉ c.outputs

/-- Every gate drives a declared output or a wire that a gate reads. -/
def Live (c : Circuit) : Prop :=
  ∀ g ∈ c.gates, ∃ w ∈ g.outs, w ∈ c.outputs ∨ ∃ a ∈ c.gates, w ∈ a.ins

/-! ## Numbers of wires -/

/-- A number above those of all wires. -/
def idBound (c : Circuit) : Nat :=
  c.maxWire?.elim 0 (·.id + 1)

theorem id_lt_idBound {c : Circuit} {w : Wire} (hw : w ∈ c.wires) : w.id < c.idBound := by
  obtain ⟨v, hv⟩ : ∃ v, c.maxWire? = some v :=
    Option.isSome_iff_exists.mp (List.getLast?_isSome.mpr (List.ne_nil_of_mem hw))
  rw [idBound, hv]
  exact Nat.lt_succ_of_le (Wire.id_le_of_getLast? (Wire.pairwise_ascending _) hv hw)

/-! ## Validation -/

theorem assign_eq_ok {err : Wire → Malformed} {s ws t : List Wire} :
    assign err s ws = .ok t ↔ ws.Nodup ∧ (∀ w ∈ ws, w ∉ s) ∧ t = ws.reverse ++ s := by
  induction ws generalizing s with
  | nil =>
    rw [assign]
    exact ⟨fun h ↦ ⟨.nil, nofun, (Except.ok.inj h).symm⟩, fun h ↦ congrArg _ h.2.2.symm⟩
  | cons w ws ih =>
    rw [assign]
    split_ifs with hw
    · exact ⟨nofun, fun h ↦ absurd hw (h.2.1 w List.mem_cons_self)⟩
    · rw [ih, List.nodup_cons, List.forall_mem_cons, List.reverse_cons, List.append_assoc]
      simp only [List.mem_cons, not_or, List.singleton_append]
      constructor
      · rintro ⟨hnodup, hfresh, ht⟩
        exact ⟨⟨fun hmem ↦ (hfresh w hmem).1 rfl, hnodup⟩, ⟨hw, fun v hv ↦ (hfresh v hv).2⟩, ht⟩
      · rintro ⟨⟨hmem, hnodup⟩, ⟨_, hfresh⟩, ht⟩
        exact ⟨hnodup, fun v hv ↦ ⟨fun he ↦ hmem (he ▸ hv), hfresh v hv⟩, ht⟩

theorem checkGate_eq_ok {g : Gate} : checkGate g = .ok () ↔ g.WellFormed := by
  unfold checkGate
  split_ifs with hshape
  · cases hfind : g.formWires.find? (· ∉ g.ins) with
    | some w =>
      have hmem : w ∈ g.formWires := List.mem_of_find?_eq_some hfind
      have hw : w ∉ g.ins := by simpa using List.find?_some hfind
      exact ⟨nofun, fun h ↦ absurd (h.form w hmem) hw⟩
    | none =>
      refine ⟨fun _ ↦ ⟨Gate.shaped_iff.mpr hshape, fun w hw ↦ ?_⟩, fun _ ↦ rfl⟩
      simpa using List.find?_eq_none.mp hfind w hw
  · exact ⟨nofun, fun h ↦ absurd (Gate.shaped_iff.mp h.shaped) hshape⟩

theorem checkGates_eq_ok {s t : List Wire} {gates : List Gate} :
    checkGates s gates = .ok t ↔ (∀ g ∈ gates, g.WellFormed) ∧ (gates.flatMap Gate.outs).Nodup ∧
      (∀ w ∈ gates.flatMap Gate.outs, w ∉ s) ∧ t = (gates.flatMap Gate.outs).reverse ++ s := by
  induction gates generalizing s with
  | nil =>
    rw [checkGates]
    exact ⟨fun h ↦ ⟨nofun, .nil, nofun, (Except.ok.inj h).symm⟩, fun h ↦ congrArg _ h.2.2.2.symm⟩
  | cons g gates ih =>
    rw [checkGates, bind_eq_ok]
    simp only [bind_eq_ok, assign_eq_ok, ih, List.forall_mem_cons, List.flatMap_cons,
      List.nodup_append, List.mem_append, List.reverse_append, List.append_assoc]
    constructor
    · rintro ⟨_, hg, _, ⟨hnd, hfresh, rfl⟩, hgates, hnodup, hrest, ht⟩
      simp only [List.mem_append, List.mem_reverse, not_or] at hrest
      refine ⟨⟨checkGate_eq_ok.mp hg, hgates⟩, ⟨hnd, hnodup, ?_⟩, ?_, ht⟩
      · exact fun a ha b hb he ↦ (hrest b hb).1 (he ▸ ha)
      · exact fun w hw ↦ hw.elim (hfresh w) fun h ↦ (hrest w h).2
    · rintro ⟨⟨hg, hgates⟩, ⟨hnd, hnodup, hdisjoint⟩, hfresh, ht⟩
      refine ⟨(), checkGate_eq_ok.mpr hg, _, ⟨hnd, fun w hw ↦ hfresh w (.inl hw), rfl⟩, hgates,
        hnodup, fun w hw hmem ↦ ?_, ht⟩
      rcases List.mem_append.mp hmem with hmem | hmem
      · exact hdisjoint w (List.mem_reverse.mp hmem) w hw rfl
      · exact hfresh w (.inr hw) hmem

theorem unassignedRead?_eq_none {s : List Wire} {gates : List Gate} :
    unassignedRead? s gates = none ↔ ∀ g ∈ gates, ∀ w ∈ g.ins, w ∈ s := by
  simp [unassignedRead?, List.findSome?_eq_none_iff]

/-- Validation accepts exactly the valid circuits. -/
theorem validate_eq_ok {c : Circuit} : c.validate = .ok () ↔ c.Valid := by
  have hmem {s : List Wire} (hs : s = (c.gates.flatMap Gate.outs).reverse ++
      (c.inputWires.reverse ++ [])) {w : Wire} : w ∈ s ↔ w ∈ c.driven := by
    rw [hs, driven]
    simp only [List.append_nil, List.mem_append, List.mem_reverse]
    exact or_comm
  unfold validate
  simp only [bind_eq_ok, assign_eq_ok, checkGates_eq_ok]
  constructor
  · rintro ⟨_, ⟨hnd, _, rfl⟩, s, ⟨hgates, hnodup, hfresh, hs⟩, h⟩
    have hread : unassignedRead? s c.gates = none := by
      cases hr : unassignedRead? s c.gates with
      | none => rfl
      | some e =>
        rw [hr] at h
        cases h
    have hout : c.outputs.find? (· ∉ s) = none := by
      cases ho : c.outputs.find? (· ∉ s) with
      | none => rfl
      | some w =>
        rw [hread, ho] at h
        cases h
    refine ⟨⟨hgates, ?_, fun w hw ↦ ?_⟩, fun g hg w hw ↦ ?_⟩
    · refine List.nodup_append.mpr ⟨hnd, hnodup, fun a ha b hb he ↦ hfresh b hb ?_⟩
      simpa [he] using ha
    · exact (hmem hs).mp (by simpa using List.find?_eq_none.mp hout w hw)
    · exact (hmem hs).mp (unassignedRead?_eq_none.mp hread g hg w hw)
  · intro h
    obtain ⟨hnd, hnodup, hdisjoint⟩ := List.nodup_append.mp h.nodup
    refine ⟨_, ⟨hnd, by simp, rfl⟩, _, ⟨h.gates, hnodup, fun w hw hmem ↦ ?_, rfl⟩, ?_⟩
    · exact hdisjoint w (by simpa using hmem) w hw rfl
    · rw [unassignedRead?_eq_none.mpr fun g hg w hw ↦ (hmem rfl).mpr (h.reads g hg w hw),
        List.find?_eq_none.mpr fun w hw ↦ by
          simpa only [decide_not, Bool.not_eq_true', decide_eq_false_iff_not, not_not] using
            (hmem rfl).mpr (h.outputs w hw)]
      rfl

end Circuit

end Quadratize
