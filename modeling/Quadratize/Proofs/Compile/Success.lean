import Quadratize.Proofs.Circuit.Emit
import Quadratize.Proofs.Circuit.Visit
import Quadratize.Proofs.Compile.Passes

/-!
# Circuits that compile

A valid circuit whose gates can be put into evaluation order goes through all passes, if the
numbering waits for all inputs of a gate.  What remains are primary inputs that cannot be shifted,
padding that runs out of numbers, and splits and zero tests of a wire that is found to be zero.
-/

namespace Quadratize.Circuit

variable {c d k : Circuit} {opts : Options}

/-! ## Up to synthesis -/

/-- The passes up to synthesis. -/
def synthesized (opts : Options) (c : Circuit) : Except CircuitError Circuit := do
  lift c.validate
  let (c, _) ← lift c.normalizeInputs
  let (c, _) ← lift c.removeDeadGates.1.insertPadding
  let (c, _) ← lift (c.renumber opts.wireOrder)
  let (c, _) ← c.synthesize
  return c

/-- The passes after synthesis. -/
def finished (opts : Options) (c : Circuit) : Except CircuitError Circuit := do
  let c ← c.zeroStep opts
  let (c, _) ← lift (c.removeDeadGates.1.renumber opts.wireOrder)
  lift c.sortGates

theorem canonical_eq_bind (opts : Options) (c : Circuit) :
    c.canonical opts = c.synthesized opts >>= finished opts := by
  simp only [canonical, synthesized, finished, bind_assoc, pure_bind]

theorem lift_eq_error {α : Type} {x : Except Malformed α} {e : Malformed} (h : x = .error e) :
    lift x = .error (.malformed e) := by
  rw [h]
  rfl

/-- Acyclic circuits of which every gate is needed are synthesized to acyclic circuits of canonical
kind. -/
theorem Acyclic.exists_synthesize (h : c.Acyclic) (hc : c.Valid) (hlive : c.Live)
    (hpack : ∀ g ∈ c.gates, g.op ≠ .pack) (hlinear : c.LinearInside) :
    ∃ d n, c.synthesize = .ok (d, n) ∧ d.Valid ∧ d.Acyclic ∧ ∀ g ∈ d.gates, g.op.IsCanonical := by
  obtain ⟨d, n, hd⟩ := hc.toWellFormed.exists_synthesize h
  obtain ⟨hvalid, hleft⟩ := hc.synthesize hlinear (h.leadsOut hlinear hlive) hd
  refine ⟨d, n, hd, hvalid, h.synthesize hc.toWellFormed hd, fun g hg ↦ ?_⟩
  refine ((Reduced.synthesize hc.toWellFormed hd hpack hlinear).kind g hg).resolve_left fun hl ↦ ?_
  rw [hleft g hg] at hl
  cases hl

/-- A padded circuit that is acyclic can be numbered and synthesized. -/
theorem Acyclic.exists_numbered (h : c.Acyclic) (hc : c.Valid) (hlive : c.Live)
    (hpack : ∀ g ∈ c.gates, g.op ≠ .pack) (hlinear : c.LinearInside) :
    ∃ d ws, c.renumber .allInputsReady = .ok (d, ws) ∧
      ∃ q n, d.synthesize = .ok (q, n) ∧ q.Valid ∧ q.Acyclic ∧ ∀ g ∈ q.gates, g.op.IsCanonical := by
  obtain ⟨d, ws, hd⟩ := hc.exists_renumber_iff.mpr h
  obtain ⟨hnum, rfl⟩ := renumber_eq_ok.mp hd
  have hinj := injOn_renumber hnum
  refine ⟨_, ws, hd, Acyclic.exists_synthesize ((acyclic_rename hinj).mpr h) (hc.rename hinj)
    (hlive.rename _) (fun g' hg' ↦ ?_) (hlinear.rename hinj)⟩
  obtain ⟨g, hg, rfl⟩ := List.mem_map.mp hg'
  exact Opcode.rename_ne_pack (hpack g hg) _

/-- How the passes up to synthesis end. -/
theorem synthesized_cases (hc : c.Valid) (hinputs : c.inputs ≠ []) (h : c.Acyclic)
    (hopts : opts.wireOrder = .allInputsReady) :
    (∃ q, c.synthesized opts = .ok q ∧ q.Valid ∧ q.Acyclic ∧ ∀ g ∈ q.gates, g.op.IsCanonical) ∨
      (∃ e, c.normalizeInputs = .error e ∧ c.synthesized opts = .error (.malformed e)) ∨
      ∃ d changed, c.normalizeInputs = .ok (d, changed) ∧
        d.removeDeadGates.1.insertPadding = .error .exhausted ∧
        c.synthesized opts = .error (.malformed .exhausted) := by
  have hvalid : lift c.validate = .ok () := mapError_eq_ok.mpr (validate_eq_ok.mpr hc)
  cases hnormal : c.normalizeInputs with
  | error e =>
    refine .inr (.inl ⟨e, rfl, bind_eq_error.mpr (.inr ⟨(), hvalid, bind_eq_error.mpr (.inl ?_)⟩)⟩)
    exact lift_eq_error hnormal
  | ok x =>
    obtain ⟨d, changed⟩ := x
    have hd := hc.normalizeInputs hnormal
    have hlive := live_of_removeDeadGates d
    have hdead := (acyclic_removeDeadGates (c := d)).mpr ((acyclic_normalizeInputs hnormal).mpr h)
    have hne : d.removeDeadGates.1.inputs ≠ [] := by
      have hlength := length_inputs_normalizeInputs hnormal
      intro hnil
      exact hinputs (List.length_eq_zero_iff.mp (hlength ▸ List.length_eq_zero_iff.mpr hnil))
    cases hpad : d.removeDeadGates.1.insertPadding with
    | error e =>
      obtain rfl := exhausts_insertPadding hne e hpad
      refine .inr (.inr ⟨d, changed, rfl, hpad, ?_⟩)
      refine bind_eq_error.mpr (.inr ⟨(), hvalid, ?_⟩)
      refine bind_eq_error.mpr (.inr ⟨_, mapError_eq_ok.mpr hnormal, ?_⟩)
      exact bind_eq_error.mpr (.inl (lift_eq_error hpad))
    | ok x =>
      obtain ⟨p, n⟩ := x
      obtain ⟨hpack, hlinear⟩ := op_insertPadding hd.removeDeadGates hpad
      obtain ⟨r, ws, hr, q, m, hq, hspec⟩ := Acyclic.exists_numbered
        ((acyclic_insertPadding hd.removeDeadGates hpad).mpr hdead)
        (hd.removeDeadGates.insertPadding hpad) (hlive.insertPadding hd.removeDeadGates hpad) hpack
        hlinear
      refine .inl ⟨q, ?_, hspec⟩
      refine bind_eq_ok.mpr ⟨(), hvalid, bind_eq_ok.mpr ⟨_, mapError_eq_ok.mpr hnormal, ?_⟩⟩
      refine bind_eq_ok.mpr ⟨_, mapError_eq_ok.mpr hpad, ?_⟩
      rw [hopts]
      exact bind_eq_ok.mpr ⟨_, mapError_eq_ok.mpr hr, bind_eq_ok.mpr ⟨_, hq, rfl⟩⟩

/-! ## From synthesis on -/

/-- How the passes after synthesis end. -/
theorem finished_cases (hc : c.Valid) (h : c.Acyclic) (hkinds : ∀ g ∈ c.gates, g.op.IsCanonical)
    (hopts : opts.wireOrder = .allInputsReady) :
    (∃ k, c.finished opts = .ok k) ∨
      opts.zeroPropagation = true ∧ ∃ s g w, ZeroReached c.outputs c.gates s ∧
        ReadsZero s.gates g w ∧ c.finished opts = .error (.violation g (.readsZero w)) := by
  cases hzero : c.zeroStep opts with
  | error e =>
    have hprop : opts.zeroPropagation = true ∧ c.propagateZeros = .error e := by
      unfold zeroStep at hzero
      split_ifs at hzero with hon
      refine ⟨hon, ?_⟩
      cases hp : c.propagateZeros with
      | error e' =>
        rw [hp] at hzero
        exact congrArg _ (Except.error.inj hzero)
      | ok x =>
        rw [hp] at hzero
        cases hzero
    obtain ⟨s, g, w, hs, hreads, rfl⟩ := propagateZeros_eq_error hc.toWellFormed hkinds hprop.2
    exact .inr ⟨hprop.1, s, g, w, hs, hreads, bind_eq_error.mpr (.inl hzero)⟩
  | ok z =>
    obtain ⟨hz, hacyclic⟩ : z.Valid ∧ z.Acyclic := by
      rcases zeroStep_cases hzero with rfl | ⟨rounds, hp⟩
      · exact ⟨hc, h⟩
      · exact ⟨hc.propagateZeros hp, h.propagateZeros hc.toWellFormed hp⟩
    have hdead := (acyclic_removeDeadGates (c := z)).mpr hacyclic
    obtain ⟨d, ws, hd⟩ := hz.removeDeadGates.exists_renumber_iff.mpr hdead
    obtain ⟨hnum, rfl⟩ := renumber_eq_ok.mp hd
    have hinj := injOn_renumber hnum
    obtain ⟨k, hk⟩ := (hz.removeDeadGates.rename hinj).exists_sortGates
      ((acyclic_rename hinj).mpr hdead)
    refine .inl ⟨k, bind_eq_ok.mpr ⟨z, hzero, ?_⟩⟩
    rw [hopts]
    exact bind_eq_ok.mpr ⟨_, mapError_eq_ok.mpr hd, mapError_eq_ok.mpr hk⟩

/-! ## The whole compilation -/

/-- A valid circuit with primary inputs whose gates can be put into evaluation order compiles, if
the numbering waits for all inputs, unless a primary input cannot be shifted, padding runs out of
numbers, or zeros are propagated to a split or a zero test of a wire with the zero form. -/
theorem compile_of_orderable (hvalid : c.validate = .ok ()) (hinputs : c.inputs ≠ [])
    (horder : c.Orderable) (hopts : opts.wireOrder = .allInputsReady) :
    (∃ C, c.compile opts = .ok C) ∨
      (∃ e, c.normalizeInputs = .error e ∧ c.compile opts = .error (.malformed e) ∧
        ∃ w ∈ c.inputWires, e = .unshiftable w ∧ wireLimit ≤ w.id + 1 ∨
          ∃ v ∈ c.wires, v ∉ c.inputWires ∧ e = .collision w v) ∨
      (∃ d changed, c.normalizeInputs = .ok (d, changed) ∧
        d.removeDeadGates.1.insertPadding = .error .exhausted ∧
        c.compile opts = .error (.malformed .exhausted)) ∨
      opts.zeroPropagation = true ∧ ∃ q s g w, c.synthesized opts = .ok q ∧
        ZeroReached q.outputs q.gates s ∧ ReadsZero s.gates g w ∧
        c.compile opts = .error (.violation g (.readsZero w)) := by
  have hc := validate_eq_ok.mp hvalid
  have herror {e : CircuitError} (h : c.canonical opts = .error e) : c.compile opts = .error e :=
    bind_eq_error.mpr (.inl h)
  rcases synthesized_cases hc hinputs (horder.acyclic hc.nodup) hopts with
    ⟨q, hq, hqvalid, hqacyclic, hkinds⟩ | ⟨e, hnormal, he⟩ | ⟨d, changed, hnormal, hpad, he⟩
  · have hcanonical : c.canonical opts = q.finished opts := by
      rw [canonical_eq_bind, hq]
      rfl
    rcases finished_cases hqvalid hqacyclic hkinds hopts with ⟨k, hk⟩ | ⟨hon, s, g, w, hs, hr, he⟩
    · -- What is emitted are gates with the wires of their kinds.
      obtain ⟨p⟩ := canonical_eq_ok.mp (hcanonical.trans hk)
      obtain ⟨s, hs⟩ := exists_emit fun g hg ↦ (p.valid.gates g hg).shaped
      exact .inl ⟨⟨k, s⟩, compile_eq_ok.mpr ⟨hs, ⟨p⟩⟩⟩
    · exact .inr (.inr (.inr ⟨hon, q, s, g, w, hq, hs, hr, herror (hcanonical.trans he)⟩))
  · refine .inr (.inl ⟨e, hnormal, herror ?_, ?_⟩)
    · rw [canonical_eq_bind]
      exact bind_eq_error.mpr (.inl he)
    · obtain ⟨w, hw, hshift | ⟨v, hv, hcollision⟩⟩ := normalizeInputs_eq_error hinputs hnormal
      · exact ⟨w, hw, .inl hshift⟩
      · obtain ⟨hv, hnot⟩ := List.mem_filter.mp hv
        exact ⟨w, hw, .inr ⟨v, hv, of_decide_eq_true hnot, hcollision⟩⟩
  · refine .inr (.inr (.inl ⟨d, changed, hnormal, hpad, herror ?_⟩))
    rw [canonical_eq_bind]
    exact bind_eq_error.mpr (.inl he)

/-- A zero test of a difference that is always zero. -/
def zeroTested : Circuit where
  inputs := [⟨1, []⟩, ⟨2, []⟩]
  gates := [⟨.sub, [2, 2], [3], []⟩, ⟨.zerop, [3], [4, 5], []⟩]
  outputs := [5]

/-- The example compiles; a zero test of zero does so only if zeros are not propagated. -/
theorem compile_of_orderable_sample :
    (sample.validate = .ok () ∧ sample.inputs ≠ [] ∧ sample.Orderable) ∧
      (∃ C, sample.compile {} = .ok C) ∧
    (zeroTested.validate = .ok () ∧ zeroTested.inputs ≠ [] ∧ zeroTested.Orderable) ∧
      (∃ q s g w, zeroTested.synthesized {} = .ok q ∧ ZeroReached q.outputs q.gates s ∧
        ReadsZero s.gates g w ∧ zeroTested.compile {} = .error (.violation g (.readsZero w))) ∧
      ∃ C, zeroTested.compile { zeroPropagation := false } = .ok C := by
  have hvalid : sample.validate = .ok () := by decide +kernel
  have hinputs : sample.inputs ≠ [] := List.cons_ne_nil _ _
  have horder : sample.Orderable :=
    ⟨sample.gates, .refl _, by decide +kernel, by decide +kernel, by decide +kernel,
      by decide +kernel, trivial⟩
  have hvalid' : zeroTested.validate = .ok () := by decide +kernel
  have hinputs' : zeroTested.inputs ≠ [] := List.cons_ne_nil _ _
  have horder' : zeroTested.Orderable :=
    ⟨zeroTested.gates, .refl _, by decide +kernel, by decide +kernel, trivial⟩
  have hcompiles : (sample.compile {}).isOk = true := by decide +kernel
  have hfails : zeroTested.compile {} =
      .error (.violation ⟨.zerop, [3], [4, 5], []⟩ (.readsZero 3)) := by decide +kernel
  refine ⟨⟨hvalid, hinputs, horder⟩, ?_, ⟨hvalid', hinputs', horder'⟩, ?_, ?_⟩
  · refine (compile_of_orderable hvalid hinputs horder rfl).resolve_right ?_
    rintro (⟨e, -, he, -⟩ | ⟨d, changed, -, -, he⟩ | ⟨-, q, s, g, w, -, -, -, he⟩)
    all_goals
      rw [he] at hcompiles
      cases hcompiles
  · have hopts : ({} : Options).wireOrder = .allInputsReady := rfl
    rcases compile_of_orderable hvalid' hinputs' horder' hopts with
      ⟨C, hC⟩ | ⟨e, -, he, -⟩ | ⟨d, changed, -, -, he⟩ | ⟨-, hzero⟩
    · cases hfails.symm.trans hC
    · cases hfails.symm.trans he
    · cases hfails.symm.trans he
    · exact hzero
  · have hkept : (zeroTested.compile { zeroPropagation := false }).isOk = true := by decide +kernel
    refine (compile_of_orderable hvalid' hinputs' horder' rfl).resolve_right ?_
    rintro (⟨e, -, he, -⟩ | ⟨d, changed, -, -, he⟩ | ⟨hon, -⟩)
    · rw [he] at hkept
      cases hkept
    · rw [he] at hkept
      cases hkept
    · cases hon

end Quadratize.Circuit
