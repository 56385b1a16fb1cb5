import Quadratize.Proofs.Circuit.Layers
import Quadratize.Proofs.Circuit.ZeroGates

/-!
# Solutions under the removal of zero gates

The solutions of a circuit are those of what is left that are zero on what the removed gates drive.
No zero gate is left.  Every sweep but the last removes a gate, and on gates in evaluation order the
first sweep removes all: what it puts into a form is read only later in the same sweep.
-/

namespace Quadratize

/-- A gate up to some place does not read what the gate at that place drives. -/
theorem Gate.InOrder.notMem_ins {ready : List Wire} {gates : List Gate} {g d : Gate} {j k : Nat}
    {z : Wire} (h : Gate.InOrder Gate.ins ready gates)
    (hnodup : (ready ++ gates.flatMap Gate.outs).Nodup) (hjk : j ≤ k) (hg : gates[j]? = some g)
    (hd : gates[k]? = some d) (hz : z ∈ d.outs) : z ∉ g.ins := by
  obtain ⟨hk, rfl⟩ := List.getElem?_eq_some_iff.mp hd
  have hsplit : gates = gates.take k ++ gates[k] :: gates.drop (k + 1) := by
    rw [← List.drop_eq_getElem_cons hk, List.take_append_drop]
  have hget : (gates.take (k + 1))[j]? = some g := by
    rw [List.getElem?_take_of_lt (Nat.lt_succ_of_le hjk), hg]
  have hmem : g ∈ gates.take k ++ [gates[k]] := by
    rw [List.take_append_getElem]
    exact List.mem_of_getElem? hget
  intro hzg
  rw [hsplit] at h hnodup
  have hready := h.mem_ready hmem hzg
  rw [List.flatMap_append, List.flatMap_cons, ← List.append_assoc, List.nodup_append] at hnodup
  exact hnodup.2.2 z hready z (List.mem_append_left _ hz) rfl

namespace Circuit

variable {gates after : List Gate} {ready outputs : List Wire} {s t : ZeroSweep} {k : Nat}
  {rounds : Sweeps}

/-- No gate has the zero form, except for gates that drive declared outputs. -/
def ZeroFree (outputs : List Wire) (gates : List Gate) : Prop :=
  ∀ a ∈ gates, isZeroGate outputs a = false

/-! ## Sweeps that remove nothing -/

theorem ZeroFree.sweepZero {p : Nat} (h : ZeroFree outputs gates) (hp : p < gates.length) :
    sweepZero outputs gates ⟨gates, []⟩ p = .ok ⟨gates, []⟩ := by
  have hg : gates[p]? = some gates[p] := List.getElem?_eq_getElem hp
  unfold Circuit.sweepZero
  dsimp only
  rw [hg]
  exact if_neg (Bool.eq_false_iff.mp (h _ (List.mem_of_getElem? hg)))

/-- A sweep over gates without zero gates changes nothing. -/
theorem ZeroFree.foldlM {ps : List Nat} (h : ZeroFree outputs gates)
    (hps : ∀ p ∈ ps, p < gates.length) :
    ps.foldlM (Circuit.sweepZero outputs gates) ⟨gates, []⟩ = .ok ⟨gates, []⟩ := by
  induction ps with
  | nil => rfl
  | cons p ps ih =>
    obtain ⟨hp, hps⟩ := List.forall_mem_cons.mp hps
    rw [List.foldlM_cons, h.sweepZero hp]
    exact ih hps

/-- Gates without zero gates are looked at once. -/
theorem ZeroFree.withoutZeroGates (h : ZeroFree outputs gates) :
    withoutZeroGates outputs gates = .ok (gates, ⟨0, 1⟩) := by
  have hkept : ZeroSweep.kept ⟨gates, []⟩ = gates := by
    simp [ZeroSweep.kept]
  rw [Circuit.withoutZeroGates, h.foldlM fun p hp ↦ List.mem_range.mp hp]
  refine bind_eq_ok.mpr ⟨_, rfl, ?_⟩
  rw [dif_neg (by rw [hkept]; exact lt_irrefl _)]
  rfl

/-! ## One sweep -/

/-- No zero gate is left before the position. -/
def SweptTo (outputs : List Wire) (k : Nat) (s : ZeroSweep) : Prop :=
  ∀ j < k, j ∉ s.removed → ∀ a, s.gates[j]? = some a → isZeroGate outputs a = false

/-- A step that removes nothing has not met a zero gate. -/
theorem SweptTo.step_of_removed (h : SweptTo outputs k s)
    (hgates : List.Forall₂ Zeroed gates s.gates) (ht : sweepZero outputs gates s k = .ok t)
    (hremoved : t.removed = s.removed) :
    t = s ∧ SweptTo outputs (k + 1) t := by
  obtain ⟨rfl, hzero⟩ | ⟨a, z, -, -, -, hcons, -⟩ := sweepZero_cases hgates ht
  · refine ⟨rfl, fun j hj hremoved b hb ↦ ?_⟩
    rcases Nat.lt_succ_iff_lt_or_eq.mp hj with hj | rfl
    · exact h j hj hremoved b hb
    · exact hzero b hb
  · have hlength := congrArg List.length (hcons.symm.trans hremoved)
    rw [List.length_cons] at hlength
    omega

/-- On gates in evaluation order a step puts zero only into gates behind it. -/
theorem SweptTo.step (h : SweptTo outputs k s) (hgates : List.Forall₂ Zeroed gates s.gates)
    (horder : Gate.InOrder Gate.ins ready gates)
    (hnodup : (ready ++ gates.flatMap Gate.outs).Nodup)
    (ht : sweepZero outputs gates s k = .ok t) : SweptTo outputs (k + 1) t := by
  obtain ⟨rfl, -⟩ | ⟨a, z, ha, -, hz, hcons, hzeroed⟩ := sweepZero_cases hgates ht
  · exact (h.step_of_removed hgates ht rfl).2
  intro j hj hremoved b hb
  rw [hcons, List.mem_cons, not_or] at hremoved
  obtain ⟨hne, hremoved⟩ := hremoved
  have hlt : j < k := by omega
  obtain ⟨hk, -⟩ := List.getElem?_eq_some_iff.mp ha
  have hc := List.getElem?_eq_getElem (hlt.trans hk)
  obtain ⟨d, hd, hda⟩ := exists_zeroed hgates ha
  obtain ⟨g, hg, -⟩ := exists_zeroed hgates hc
  have hunread : z ∉ g.ins := by
    refine horder.notMem_ins hnodup hlt.le hg hd ?_
    rw [← hda.outs, hz]
    exact List.mem_singleton_self z
  -- What stands before the position stays as it is.
  obtain ⟨b', hb', hread⟩ := getElem?_zeroWire hzeroed hg hc
  obtain rfl := Option.some.inj (hb.symm.trans hb')
  rw [if_neg hunread] at hread
  exact h j hlt hremoved b (hc.trans (congrArg some (Except.ok.inj hread)))

section

variable (hgates : ∀ g ∈ gates, g.WellFormed)
  (hs : (List.range gates.length).foldlM (sweepZero outputs gates) ⟨gates, []⟩ = .ok s)
include hgates hs

theorem sweeping_of_foldlM : Sweeping outputs gates s :=
  foldlM_induction (fun _ _ _ ↦ Sweeping.step) (sweeping_start hgates) hs

/-- On gates in evaluation order a sweep keeps no zero gate. -/
theorem zeroFree_kept_of_inOrder (horder : Gate.InOrder Gate.ins ready gates)
    (hnodup : (ready ++ gates.flatMap Gate.outs).Nodup) : ZeroFree outputs s.kept := by
  have hswept : Sweeping outputs gates s ∧ SweptTo outputs gates.length s := by
    refine foldlM_range_induction (P := fun k s ↦ Sweeping outputs gates s ∧ SweptTo outputs k s)
      (fun k s t ⟨hsweeping, hswept⟩ ht ↦ ⟨hsweeping.step ht, ?_⟩)
      ⟨sweeping_start hgates, nofun⟩ hs
    exact hswept.step hsweeping.gates horder hnodup ht
  intro a ha
  obtain ⟨p, hp, hremoved⟩ := ZeroSweep.mem_kept.mp ha
  have hlt := (List.getElem?_eq_some_iff.mp hp).1
  exact hswept.2 p (hswept.1.gates.length_eq ▸ hlt) hremoved a hp

/-- If a sweep keeps as many gates as there are then none is a zero gate. -/
theorem zeroFree_of_kept (hkept : ¬s.kept.length < gates.length) : ZeroFree outputs gates := by
  have hsweeping := sweeping_of_foldlM hgates hs
  have hremoved : s.removed = [] := by
    rw [List.eq_nil_iff_forall_not_mem]
    intro p hp
    obtain ⟨a, ha, -⟩ := hsweeping.zero p hp
    refine hkept ?_
    rw [ZeroSweep.kept, List.length_map, hsweeping.gates.length_eq]
    refine (List.length_filter_lt_length_iff_exists.mpr ⟨(a, p), ?_, ?_⟩).trans_eq
      List.length_zipIdx
    · exact List.mem_zipIdx_iff_getElem?.mpr ha
    · exact fun h ↦ of_decide_eq_true h hp
  -- As long as a sweep has removed nothing it has changed nothing and not met a zero gate.
  have hswept : s.removed = [] → s.gates = gates ∧ SweptTo outputs gates.length s := by
    refine (foldlM_range_induction (P := fun k s ↦ Sweeping outputs gates s ∧
      (s.removed = [] → s.gates = gates ∧ SweptTo outputs k s)) ?_ ?_ hs).2
    · rintro k s t ⟨hsweeping, hswept⟩ ht
      refine ⟨hsweeping.step ht, fun hnil ↦ ?_⟩
      obtain ⟨rfl, -⟩ | ⟨a, z, -, -, -, hcons, -⟩ := sweepZero_cases hsweeping.gates ht
      · obtain ⟨hsame, hswept⟩ := hswept hnil
        exact ⟨hsame, (hswept.step_of_removed hsweeping.gates ht rfl).2⟩
      · cases hnil.symm.trans hcons
    · exact ⟨sweeping_start hgates, fun _ ↦ ⟨rfl, fun j hj ↦ absurd hj (Nat.not_lt_zero j)⟩⟩
  obtain ⟨hsame, hswept⟩ := hswept hremoved
  intro a ha
  obtain ⟨j, hj⟩ := List.mem_iff_getElem?.mp ha
  exact hswept j (List.getElem?_eq_some_iff.mp hj).1 (hremoved ▸ List.not_mem_nil) a (hsame ▸ hj)

end

/-! ## All sweeps -/

/-- In the end no zero gate is left, and every sweep but the last has removed a gate. -/
theorem withoutZeroGates_counts (hgates : ∀ g ∈ gates, g.WellFormed)
    (h : withoutZeroGates outputs gates = .ok (after, rounds)) :
    ZeroFree outputs after ∧ rounds.removed + after.length = gates.length ∧
      rounds.rounds ≤ rounds.removed + 1 := by
  induction hn : gates.length using Nat.strongRecOn generalizing gates after rounds with
  | ind n ih =>
    rw [withoutZeroGates] at h
    obtain ⟨s, hs, h⟩ := bind_eq_ok.mp h
    split_ifs at h with hlt
    · obtain ⟨⟨rest, t⟩, hrest, h⟩ := bind_eq_ok.mp h
      obtain ⟨rfl, rfl⟩ := Prod.mk.inj (Except.ok.inj h)
      have hkept : ∀ a ∈ s.kept, a.WellFormed := fun a ha ↦ by
        obtain ⟨g, -, hg⟩ := (sweeping_of_foldlM hgates hs).kept.gates a ha
        exact hg.wellFormed
      obtain ⟨hfree, hlength, hrounds⟩ := ih _ (hn ▸ hlt) hkept hrest rfl
      refine ⟨hfree, ?_, ?_⟩
      · dsimp only
        omega
      · dsimp only
        omega
    · obtain ⟨rfl, rfl⟩ := Prod.mk.inj (Except.ok.inj h)
      exact ⟨zeroFree_of_kept hgates hs hlt, by rw [← hn, Nat.zero_add], le_rfl⟩

/-- Gates in evaluation order need one sweep to remove all zero gates and one to see that. -/
theorem rounds_le_two (hgates : ∀ g ∈ gates, g.WellFormed)
    (horder : Gate.InOrder Gate.ins ready gates)
    (hnodup : (ready ++ gates.flatMap Gate.outs).Nodup)
    (h : withoutZeroGates outputs gates = .ok (after, rounds)) : rounds.rounds ≤ 2 := by
  rw [withoutZeroGates] at h
  obtain ⟨s, hs, h⟩ := bind_eq_ok.mp h
  split_ifs at h
  · obtain ⟨⟨rest, t⟩, hrest, h⟩ := bind_eq_ok.mp h
    obtain ⟨-, rfl⟩ := Prod.mk.inj (Except.ok.inj h)
    rw [(zeroFree_kept_of_inOrder hgates hs horder hnodup).withoutZeroGates] at hrest
    obtain ⟨-, rfl⟩ := Prod.mk.inj (Except.ok.inj hrest)
    exact le_rfl
  · obtain ⟨-, rfl⟩ := Prod.mk.inj (Except.ok.inj h)
    exact one_le_two

/-! ## Solutions of circuits -/

/-- Removing zero gates removes gates with forms and gives other forms to gates that have one.  The
solutions of the circuit are the solutions of what is left that are zero on what the removed gates
drive.  No gate with the zero form is left but those that drive declared outputs.  There is at most
one round more than there are removed gates, and at most two if the gates are in evaluation
order. -/
theorem solutions_of_propagateZeros {c d : Circuit} (hc : c.validate = .ok ())
    (h : c.propagateZeros = .ok (d, rounds)) :
    d.inputs = c.inputs ∧ d.outputs = c.outputs ∧
      (∃ removed, Gate.Thinning Gate.Reformed Gate.HasForm c.gates d.gates removed ∧
        removed.length = rounds.removed ∧
        ∀ r, c.Satisfies r ↔ d.Satisfies r ∧ ∀ g ∈ removed, ∀ z ∈ g.outs, r z = 0) ∧
      (∀ a ∈ d.gates, a.op = .quadratic 0 → ∃ z ∈ a.outs, z ∈ d.outputs) ∧
      rounds.rounds ≤ rounds.removed + 1 ∧
      (Gate.InOrder Gate.ins c.inputWires c.gates → rounds.rounds ≤ 2) := by
  have hvalid := validate_eq_ok.mp hc
  obtain ⟨hinputs, houtputs, hgates⟩ := propagateZeros_spec hvalid.toWellFormed h
  obtain ⟨⟨gates, t⟩, hzeros, h⟩ := bind_eq_ok.mp h
  obtain ⟨rfl, rfl⟩ := Prod.mk.inj (Except.ok.inj h)
  obtain ⟨hfree, hlength, hrounds⟩ := withoutZeroGates_counts hvalid.gates hzeros
  obtain ⟨removed, hthin, hsolutions⟩ := hgates.solutions
  refine ⟨hinputs, houtputs, ⟨removed, hthin, ?_, hsolutions⟩, fun a ha hop ↦ ?_, hrounds,
    fun horder ↦ rounds_le_two hvalid.gates horder hvalid.nodup hzeros⟩
  · have htotal := hthin.length
    dsimp only at htotal
    omega
  · by_contra! hout
    exact Bool.eq_false_iff.mp (hfree a ha) (isZeroGate_iff.mpr ⟨hop, hout⟩)

/-- A chain of products that starts at a zero, in evaluation order: the last product drives a
declared output, and one sum has a term that remains. -/
def zeroChain : Circuit where
  inputs := [⟨1, []⟩]
  gates := [⟨.quadratic 0, [], [2], []⟩,
    ⟨.quadratic (QuadForm.product (Affine.var 2) (Affine.var 1)), [1, 2], [3], []⟩,
    ⟨.quadratic (QuadForm.product (Affine.var 3 + Affine.var 1) (Affine.var 1)), [1, 3], [4], []⟩,
    ⟨.quadratic (QuadForm.product (Affine.var 3) (Affine.var 4)), [3, 4], [5], []⟩]
  outputs := [5]

theorem solutions_of_propagateZeros_zeroChain : zeroChain.validate = .ok () ∧
    Gate.InOrder Gate.ins zeroChain.inputWires zeroChain.gates ∧
    ∃ d s removed, zeroChain.propagateZeros = .ok (d, s) ∧ s = ⟨2, 2⟩ ∧
      Gate.Thinning Gate.Reformed Gate.HasForm zeroChain.gates d.gates removed ∧
      removed.length = 2 ∧
      ∀ r, zeroChain.Satisfies r ↔ d.Satisfies r ∧ ∀ g ∈ removed, ∀ z ∈ g.outs, r z = 0 := by
  have hvalid : zeroChain.validate = .ok () := by decide +kernel
  obtain ⟨⟨d, s⟩, hd, hP⟩ := exists_ok_of_any (x := zeroChain.propagateZeros)
    (P := fun x ↦ decide (x.2 = ⟨2, 2⟩)) (by decide +kernel)
  obtain rfl : s = ⟨2, 2⟩ := of_decide_eq_true hP
  have horder : Gate.InOrder Gate.ins zeroChain.inputWires zeroChain.gates := by
    refine ⟨?_, ?_, ?_, ?_, trivial⟩ <;> decide
  obtain ⟨-, -, ⟨removed, hthin, hlength, hsolutions⟩, -⟩ := solutions_of_propagateZeros hvalid hd
  exact ⟨hvalid, horder, d, _, removed, hd, rfl, hthin, hlength, hsolutions⟩

end Circuit

end Quadratize
