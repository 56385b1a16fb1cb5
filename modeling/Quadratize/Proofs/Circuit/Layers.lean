import Mathlib.Data.List.Perm.Basic
import Quadratize.Circuit.Layers
import Quadratize.Proofs.Circuit.Valid

/-!
# Evaluation order

Layers put the gates of a circuit into an order in which each gate reads only primary inputs and
outputs of gates before it.
-/

namespace Quadratize

/-- Every gate of the list reads only the given wires and outputs of gates before it.  What a gate
reads is a parameter: its inputs, or the wires that its equation reads. -/
def Gate.InOrder (reads : Gate → List Wire) : List Wire → List Gate → Prop
  | _, [] => True
  | ready, g :: rest => (∀ w ∈ reads g, w ∈ ready) ∧ Gate.InOrder reads (ready ++ g.outs) rest

namespace Gate.InOrder

variable {reads : Gate → List Wire} {ready : List Wire} {gates : List Gate}

/-- Gates that read only ready wires are followed by gates that may read their outputs. -/
theorem append {layer rest : List Gate} (hlayer : ∀ g ∈ layer, ∀ w ∈ reads g, w ∈ ready)
    (hrest : Gate.InOrder reads (ready ++ layer.flatMap Gate.outs) rest) :
    Gate.InOrder reads ready (layer ++ rest) := by
  induction layer generalizing ready with
  | nil => simpa using hrest
  | cons g layer ih =>
    obtain ⟨hg, hlayer⟩ := List.forall_mem_cons.mp hlayer
    refine ⟨hg, ih (fun h hh w hw ↦ ?_) ?_⟩
    · exact List.mem_append_left _ (hlayer h hh w hw)
    · rwa [List.append_assoc, ← List.flatMap_cons]

/-- The order remains if gates read less. -/
theorem of_subset {reads' : Gate → List Wire} (h : Gate.InOrder reads ready gates)
    (hsub : ∀ g ∈ gates, reads' g ⊆ reads g) : Gate.InOrder reads' ready gates := by
  induction gates generalizing ready with
  | nil => trivial
  | cons g rest ih =>
    obtain ⟨hg, hrest⟩ := List.forall_mem_cons.mp hsub
    exact ⟨fun w hw ↦ h.1 w (hg hw), ih h.2 hrest⟩

/-- What a gate up to some place reads is ready there. -/
theorem mem_ready {g a : Gate} {before after : List Gate}
    (h : Gate.InOrder reads ready (before ++ g :: after)) (ha : a ∈ before ++ [g]) {w : Wire}
    (hw : w ∈ reads a) :
    w ∈ ready ++ before.flatMap Gate.outs := by
  induction before generalizing ready with
  | nil =>
    obtain rfl := List.mem_singleton.mp ha
    exact List.mem_append_left _ (h.1 w hw)
  | cons b before ih =>
    rw [List.flatMap_cons, ← List.append_assoc]
    rcases List.mem_cons.mp ha with rfl | ha
    · exact List.mem_append_left _ (List.mem_append_left _ (h.1 w hw))
    · exact ih h.2 ha

end Gate.InOrder

namespace Circuit

theorem layered_spec {ready : List Wire} {gates sorted : List Gate}
    (h : layered ready gates = .ok sorted) :
    sorted.Perm gates ∧ Gate.InOrder Gate.ins ready sorted := by
  induction hn : gates.length using Nat.strongRecOn generalizing ready gates sorted with
  | ind n ih =>
    cases gates with
    | nil =>
      rw [layered] at h
      obtain rfl := Except.ok.inj h
      exact ⟨.nil, trivial⟩
    | cons g rest =>
      rw [layered] at h
      split_ifs at h with hlt
      obtain ⟨tail, htail, h⟩ := bind_eq_ok.mp h
      obtain rfl := Except.ok.inj h
      obtain ⟨hperm, horder⟩ := ih _ (hn ▸ hlt) htail rfl
      refine ⟨(hperm.append_left _).trans ?_, Gate.InOrder.append (fun d hd w hw ↦ ?_) horder⟩
      · exact List.filter_append_perm _ _
      · have hready : isReady ready d = true := (List.mem_filter.mp hd).2
        simpa using List.all_eq_true.mp hready w hw

/-- Sorting permutes gates and declared outputs; the gates come into evaluation order and the
outputs into ascending order. -/
theorem sortGates_spec {c d : Circuit} (h : c.sortGates = .ok d) :
    d.inputs = c.inputs ∧ d.gates.Perm c.gates ∧ Gate.InOrder Gate.ins c.inputWires d.gates ∧
      d.outputs = c.outputs.mergeSort fun v w ↦ v.id ≤ w.id := by
  obtain ⟨sorted, hsorted, h⟩ := bind_eq_ok.mp h
  obtain rfl := Except.ok.inj h
  obtain ⟨hperm, horder⟩ := layered_spec hsorted
  exact ⟨rfl, hperm, horder, rfl⟩

theorem outputs_sortGates_perm {c d : Circuit} (h : c.sortGates = .ok d) :
    d.outputs.Perm c.outputs := by
  rw [(sortGates_spec h).2.2.2]
  exact List.mergeSort_perm _ _

theorem outputs_sortGates_ascending {c d : Circuit} (h : c.sortGates = .ok d) :
    d.outputs.Pairwise (·.id ≤ ·.id) := by
  rw [(sortGates_spec h).2.2.2]
  have hsorted := @List.pairwise_mergeSort Wire (fun v w ↦ decide (v.id ≤ w.id))
    (fun u v w huv hvw ↦ by
      rw [decide_eq_true_iff] at huv hvw ⊢
      exact Nat.le_trans huv hvw)
    (fun v w ↦ by
      rw [Bool.or_eq_true, decide_eq_true_iff, decide_eq_true_iff]
      exact Nat.le_total v.id w.id)
    c.outputs
  exact hsorted.imp fun h ↦ of_decide_eq_true h

/-- Declared outputs in ascending order stay as they are. -/
theorem outputs_sortGates_of_ascending {c d : Circuit} (h : c.sortGates = .ok d)
    (hasc : c.outputs.Pairwise (·.id ≤ ·.id)) : d.outputs = c.outputs := by
  rw [(sortGates_spec h).2.2.2]
  exact List.mergeSort_of_pairwise (hasc.imp fun h ↦ decide_eq_true h)

theorem inputWires_sortGates {c d : Circuit} (h : c.sortGates = .ok d) :
    d.inputWires = c.inputWires := by
  rw [inputWires, (sortGates_spec h).1, inputWires]

theorem Valid.sortGates {c d : Circuit} (hc : c.Valid) (h : c.sortGates = .ok d) : d.Valid := by
  refine hc.of_perm (.of_eq (inputWires_sortGates h)) (sortGates_spec h).2.1 fun w hw ↦ ?_
  exact (outputs_sortGates_perm h).mem_iff.mp hw

end Circuit

end Quadratize
