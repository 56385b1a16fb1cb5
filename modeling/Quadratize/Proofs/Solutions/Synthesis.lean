import Quadratize.Proofs.Circuit.Synthesis

/-!
# Solutions under synthesis

Synthesis keeps every solution of a circuit, whatever relation stands for splits, packs and zero
tests.  If it leaves no linear gate then a solution of the new circuit gives one of the old circuit:
the expansions say what the wires of the folded gates must be.
-/

namespace Quadratize

/-! ## Splits, packs and zero tests by any relation -/

namespace Opcode

/-- Whether a formula in the inputs gives the output: all kinds but splits, packs and zero tests. -/
def hasFormula : Opcode → Bool
  | .split | .pack | .zerop => false
  | _ => true

theorem hasFormula_of_isLinear {op : Opcode} (h : op.isLinear = true) : op.hasFormula = true := by
  cases op with
  | add => rfl
  | sub => rfl
  | constMul c => rfl
  | _ => cases h

/-- What splits, packs and zero tests compute, as a relation between values. -/
def Computes : Opcode → List Scalar → List Scalar → Prop
  | .split, [x], bs => bs = x.bits bs.length
  | .pack, bs, [z] => z = Scalar.bitSum bs
  | .zerop, [x], [m, y] => if x = 0 then m = 0 ∧ y = 0 else m = x⁻¹ ∧ y = 1
  | _, _, _ => False

end Opcode

namespace Gate

variable {R : Opcode → List Scalar → List Scalar → Prop} {r q : Wire → Scalar} {g : Gate}

/-- The equation of a gate, where splits, packs and zero tests relate the values that they read to
those that they drive by `R`. -/
def HoldsBy (R : Opcode → List Scalar → List Scalar → Prop) (r : Wire → Scalar) (g : Gate) :
    Prop :=
  if g.op.hasFormula then g.Holds r else R g.op (g.ins.map r) (g.outs.map r)

theorem holdsBy_of_hasFormula (h : g.op.hasFormula = true) : g.HoldsBy R r ↔ g.Holds r := by
  rw [HoldsBy, if_pos h]

theorem holdsBy_of_isLinear (h : g.op.isLinear = true) : g.HoldsBy R r ↔ g.Holds r :=
  holdsBy_of_hasFormula (Opcode.hasFormula_of_isLinear h)

theorem reads_of_not_hasFormula (h : ¬g.op.hasFormula = true) : g.reads = g.ins := by
  unfold reads
  split
  · rename_i f hop
    rw [hop] at h
    exact absurd rfl h
  · rfl

theorem Recast.trans {m a : Gate} (h : g.Recast m) (h' : m.Recast a) : g.Recast a := by
  obtain ⟨houts', rfl | hop⟩ := h'
  · exact h
  · exact ⟨houts'.trans h.1, .inr hop⟩

/-- A linear gate stands for a linear gate only. -/
theorem Recast.isLinear {m : Gate} (h : g.Recast m) (hl : m.op.isLinear = true) :
    g.op.isLinear = true := by
  obtain ⟨-, rfl | ⟨f, hop⟩⟩ := h
  · exact hl
  · rw [hop] at hl
    cases hl

theorem holdsBy_congr (hshape : g.Shaped) (hreads : ∀ w ∈ g.reads, r w = q w)
    (houts : ∀ w ∈ g.outs, r w = q w) : g.HoldsBy R r ↔ g.HoldsBy R q := by
  unfold HoldsBy
  split_ifs with hformula
  · exact holds_congr hshape hreads houts
  · rw [reads_of_not_hasFormula hformula] at hreads
    rw [List.map_congr_left hreads, List.map_congr_left houts]

end Gate

/-- Whether the equation of every gate holds, where splits, packs and zero tests are given by
`R`. -/
def Circuit.SatisfiesBy (R : Opcode → List Scalar → List Scalar → Prop) (r : Wire → Scalar)
    (c : Circuit) : Prop :=
  ∀ g ∈ c.gates, g.HoldsBy R r

/-! ## The values that an expander gives -/

namespace Expander

variable {gates : List Gate} {e : Expander} {q r : Wire → Scalar} {w : Wire} {g : Gate} {p : Nat}

/-- A wire that no linear gate drives has no linear producer. -/
theorem Leaf.linearProducer? (hw : Leaf gates w) : linearProducer? gates w = none := by
  cases hp : Expander.linearProducer? gates w with
  | none => rfl
  | some p =>
    obtain ⟨⟨g, hg, hlinear⟩, d, hd, hwd⟩ := linearProducer?_eq_some hp
    obtain rfl : g = d := Option.some.inj (hg.symm.trans hd)
    exact absurd hwd (hw g (List.mem_of_getElem? hg) hlinear)

theorem exists_linear_of_not_leaf (hw : ¬Leaf gates w) :
    ∃ g ∈ gates, g.op.isLinear = true ∧ w ∈ g.outs := by
  unfold Leaf at hw
  push Not at hw
  exact hw

/-- A linear gate holds if its output has the value of the sum that it computes. -/
theorem holds_of_combine {xs : List (Affine Wire)} {a : Affine Wire} (hshape : g.Shaped)
    (hxs : List.Forall₂ (fun w x ↦ r w = Affine.eval q x) g.ins xs) (h : combine? g.op xs = some a)
    (houts : ∀ z ∈ g.outs, r z = a.eval q) : g.Holds r := by
  cases hshape with
  | add x y z note =>
    obtain _ | ⟨hx, _ | ⟨hy, _ | _⟩⟩ := hxs
    obtain rfl := Option.some.inj h
    show r z = r x + r y
    rw [houts z (List.mem_singleton_self z), hx, hy, Affine.eval_add]
  | sub x y z note =>
    obtain _ | ⟨hx, _ | ⟨hy, _ | _⟩⟩ := hxs
    obtain rfl := Option.some.inj h
    show r z = r x - r y
    rw [houts z (List.mem_singleton_self z), hx, hy, Affine.eval_sub]
  | constMul c x z note =>
    obtain _ | ⟨hx, _ | _⟩ := hxs
    obtain rfl := Option.some.inj h
    show r z = c * r x
    rw [houts z (List.mem_singleton_self z), hx, Affine.eval_scale, mul_comm]
  | _ => cases h

/-- The value of the operand that the expander has for a wire, zero if it has none. -/
def values (gates : List Gate) (e : Expander) (q : Wire → Scalar) (w : Wire) : Scalar :=
  match e.operand gates w with
  | .ok a => a.eval q
  | .error _ => 0

theorem values_eq {a : Affine Wire} (h : e.operand gates w = .ok a) :
    e.values gates q w = a.eval q := by
  rw [values, h]

theorem values_leaf (hw : Leaf gates w) : e.values gates q w = q w := by
  rw [values_eq (a := .var w) (by rw [operand, hw.linearProducer?]), Affine.eval_var]

section

variable (he : Sound gates e) (hnodup : (gates.flatMap Gate.outs).Nodup)
  (hknows : ∀ p g, gates[p]? = some g → g.op.isLinear = true → e.knows p = true)
include he hnodup hknows

/-- An expander that knows all linear gates gives values at which they hold. -/
theorem linearHold_values (hgates : ∀ g ∈ gates, g.WellFormed) (q : Wire → Scalar) :
    LinearHold gates (e.values gates q) := by
  intro g hg hlinear
  obtain ⟨p, hp⟩ := List.mem_iff_getElem?.mp hg
  obtain ⟨a, ha⟩ := exists_expansion (hknows p g hp hlinear)
  obtain ⟨xs, hxs, hsum⟩ := he.sums p a (expansion_eq_ok.mp ha) g hp
  refine holds_of_combine (hgates g hg).shaped ((mapM_eq_ok.mp hxs).imp fun _ _ ↦ values_eq) hsum
    fun z hz ↦ values_eq ?_
  rw [operand, exists_linearProducer? hnodup hp hlinear hz]
  exact ha

/-- Where the linear gates hold, the values of all wires come from those of the wires that no linear
gate drives. -/
theorem eq_values (hr : LinearHold gates r) (hleaf : ∀ w, Leaf gates w → r w = q w) :
    r = e.values gates q := by
  funext w
  obtain ⟨a, ha⟩ : ∃ a, e.operand gates w = .ok a := exists_operand_iff.mpr fun p hp ↦ by
    obtain ⟨⟨g, hg, hlinear⟩, -⟩ := linearProducer?_eq_some hp
    exact hknows p g hg hlinear
  have hexpands := (he.operand hnodup ha).expands
  rw [values_eq ha, ← hexpands.eval r hr]
  exact Affine.eval_congr fun v hv ↦ hleaf v (hexpands.vars v hv)

end

end Expander

/-! ## Solutions of the gates -/

namespace Circuit

open Expander

variable {R : Opcode → List Scalar → List Scalar → Prop} {gates after removed : List Gate}
  {q r : Wire → Scalar} {g : Gate}

/-- The form of a gate holds exactly where the gate holds, if the linear gates do. -/
theorem IsForm.holdsBy_iff {f : QuadForm} (h : IsForm gates g f) (hr : LinearHold gates r) :
    g.HoldsBy R r ↔ (formGate g f).HoldsBy R r := by
  have hformula : g.op.hasFormula = true := by
    rcases h.kind with hop | hlinear
    · rw [hop]
      rfl
    · exact Opcode.hasFormula_of_isLinear hlinear
  have hform : (formGate g f).op.hasFormula = true := rfl
  rw [Gate.holdsBy_of_hasFormula hformula, Gate.holdsBy_of_hasFormula hform, h.holds_iff r hr]

/-- An exclusive or and its form hold at the same assignments. -/
theorem holdsBy_synthesizeXor {a : Gate} (hg : g.WellFormed) (h : synthesizeXor g = .ok a) :
    g.HoldsBy R r ↔ a.HoldsBy R r := by
  obtain ⟨-, -, -, hholds, rfl | ⟨hop, f, hf⟩⟩ := synthesizeXor_spec hg h
  · exact Iff.rfl
  · rw [Gate.HoldsBy, Gate.HoldsBy, hop, hf]
    exact hholds r

theorem Synthesized.holdsBy (hsyn : Synthesized gates after) (hr : ∀ g ∈ gates, g.HoldsBy R r) :
    ∀ a ∈ after, a.HoldsBy R r := by
  intro a ha
  rcases hsyn.cases a ha with ⟨g, hg, f, hform, rfl⟩ | ⟨ha, -⟩
  · have hlinear : LinearHold gates r := fun d hd hl ↦ (Gate.holdsBy_of_isLinear hl).mp (hr d hd)
    exact (hform.holdsBy_iff hlinear).mp (hr g hg)
  · exact hr a ha

/-- A gate that is not folded either has a form or stays as it was. -/
theorem Synthesized.stands (hsyn : Synthesized gates after) (hgates : ∀ g ∈ gates, g.WellFormed)
    (hnodup : (gates.flatMap Gate.outs).Nodup) (hg : g ∈ gates)
    (hstays : g.op.isLinear = false ∨ isKept gates g = true) :
    (∃ f, IsForm gates g f ∧ formGate g f ∈ after) ∨
      g ∈ after ∧ g.op ≠ .mul ∧ isKept gates g = false := by
  obtain ⟨a, ha, houts⟩ := hsyn.remains g hg hstays
  obtain ⟨w, hw⟩ := (hgates g hg).shaped.exists_mem_outs
  rcases hsyn.cases a ha with ⟨d, hd, f, hform, rfl⟩ | ⟨hmem, hmul, hkept⟩
  · obtain rfl := Gate.eq_of_mem_outs hnodup hg hd hw (houts ▸ hw)
    exact .inl ⟨f, hform, ha⟩
  · obtain rfl := Gate.eq_of_mem_outs hnodup hg hmem hw (houts ▸ hw)
    exact .inr ⟨ha, hmul, hkept⟩

/-- If the form of a linear gate holds then it says what the value of the gate is. -/
theorem IsForm.values_eq {e : Expander} {f : QuadForm} (h : IsForm gates g f) (hg : g ∈ gates)
    (hl : g.op.isLinear = true) (hlinear : LinearHold gates (e.values gates q))
    (hq : (formGate g f).Holds q) : ∀ z ∈ g.outs, e.values gates q z = q z := by
  intro z hz
  obtain ⟨u, hu⟩ := h.outs
  obtain rfl : z = u := List.mem_singleton.mp (hu ▸ hz)
  have hvalue {s : Wire → Scalar} (hs : (formGate g f).Holds s) : s z = f.eval s := by
    rw [formGate, Gate.withForm, hu] at hs
    exact hs
  calc e.values gates q z
    _ = f.eval (e.values gates q) := hvalue ((h.holds_iff _ hlinear).mp (hlinear g hg hl))
    _ = f.eval q := QuadForm.eval_congr fun w hw ↦ values_leaf (h.leaves w hw)
    _ = q z := (hvalue hq).symm

section

variable (hsyn : Synthesized gates after) (hgates : ∀ g ∈ gates, g.WellFormed)
  (hnodup : (gates.flatMap Gate.outs).Nodup) (hq : ∀ a ∈ after, a.HoldsBy R q)
include hsyn hgates hnodup hq

/-- The values that the expander gives solve the gates from before, if the linear gates hold. -/
theorem Synthesized.holdsBy_values {e : Expander}
    (hlinear : LinearHold gates (e.values gates q)) :
    ∀ g ∈ gates, g.HoldsBy R (e.values gates q) := by
  intro g hg
  cases hl : g.op.isLinear with
  | true => exact (Gate.holdsBy_of_isLinear hl).mpr (hlinear g hg hl)
  | false =>
    -- What a gate of another kind drives is driven by no linear gate.
    have houts : ∀ w ∈ g.outs, e.values gates q w = q w := by
      refine fun w hw ↦ values_leaf fun d hd hdl hwd ↦ ?_
      obtain rfl := Gate.eq_of_mem_outs hnodup hg hd hw hwd
      cases hl.symm.trans hdl
    obtain ⟨f, hform, hmem⟩ | ⟨hmem, hmul, -⟩ := hsyn.stands hgates hnodup hg (.inl hl)
    · rw [hform.holdsBy_iff hlinear]
      refine (Gate.holdsBy_congr hform.wellFormed.shaped (fun w hw ↦ ?_) houts).mpr (hq _ hmem)
      exact values_leaf (hform.leaves w hw)
    · refine (Gate.holdsBy_congr (hgates g hg).shaped (fun w hw ↦ ?_) houts).mpr (hq g hmem)
      by_cases hleaf : Leaf gates w
      · exact values_leaf hleaf
      · -- A linear gate that this gate reads from is kept, so it has a form.
        obtain ⟨d, hd, hdl, hwd⟩ := exists_linear_of_not_leaf hleaf
        have hkept : isKept gates d = true := by
          have hins : w ∈ g.ins := (hgates g hg).mem_ins hw
          rw [isKept, hdl, Bool.true_and, List.any_eq_true]
          refine ⟨w, hwd, List.any_eq_true.mpr ⟨g, hg, ?_⟩⟩
          simp [hins, hl, hmul]
        obtain ⟨f, hform, hmem⟩ | ⟨-, -, hnot⟩ := hsyn.stands hgates hnodup hd (.inr hkept)
        · have hheld := (Gate.holdsBy_of_hasFormula rfl).mp (hq _ hmem)
          exact hform.values_eq hd hdl hlinear hheld w hwd
        · cases hkept.symm.trans hnot

end

/-- If no linear gate is left then a solution after synthesis agrees with exactly one solution from
before on the wires that no removed gate drives. -/
theorem Synthesized.existsUnique_solution (hsyn : Synthesized gates after)
    (hgates : ∀ g ∈ gates, g.WellFormed) (hnodup : (gates.flatMap Gate.outs).Nodup)
    (hthin : Gate.Thinning Gate.Recast (·.op.isLinear = true) gates after removed)
    (hleft : ∀ a ∈ after, a.op.isLinear = false) (hq : ∀ a ∈ after, a.HoldsBy R q) :
    ∃! r, (∀ g ∈ gates, g.HoldsBy R r) ∧ ∀ w, (∀ g ∈ removed, w ∉ g.outs) → r w = q w := by
  obtain ⟨e, he⟩ := hsyn.settled
  have hknows : ∀ p g, gates[p]? = some g → g.op.isLinear = true → e.knows p = true := by
    intro p g hp hl
    refine (he.left p g hp hl).resolve_right fun hmem ↦ ?_
    cases hl.symm.trans (hleft g hmem)
  have hlinear := linearHold_values he.sound hnodup hknows hgates q
  refine ⟨e.values gates q, ⟨?_, fun w hw ↦ ?_⟩, fun r ⟨hr, hagree⟩ ↦ ?_⟩
  · exact hsyn.holdsBy_values hgates hnodup hq hlinear
  · by_cases hleaf : Leaf gates w
    · exact values_leaf hleaf
    · obtain ⟨g, hg, hl, hwg⟩ := exists_linear_of_not_leaf hleaf
      -- The gate is not removed and not left as it was, so it has a form.
      obtain hmem | ⟨a, ha, houts, -⟩ := hthin.exists_after hg
      · exact absurd hwg (hw g hmem)
      · rcases hsyn.cases a ha with ⟨d, hd, f, hform, rfl⟩ | ⟨hmem, -⟩
        · obtain rfl := Gate.eq_of_mem_outs hnodup hg hd hwg (houts ▸ hwg)
          exact hform.values_eq hg hl hlinear ((Gate.holdsBy_of_hasFormula rfl).mp (hq _ ha)) w hwg
        · obtain rfl := Gate.eq_of_mem_outs hnodup hg hmem hwg (houts ▸ hwg)
          cases hl.symm.trans (hleft g ha)
  · refine eq_values he.sound hnodup hknows (fun g hg hl ↦ ?_) fun w hw ↦ hagree w fun g hg ↦ ?_
    · exact (Gate.holdsBy_of_isLinear hl).mp (hr g hg)
    · obtain ⟨hmem, hl⟩ := hthin.of_mem_removed hg
      exact hw g hmem hl

/-! ## Solutions of circuits -/

theorem recast_of_synthesizeXor {a : Gate} (h : synthesizeXor g = .ok a) : g.Recast a := by
  unfold synthesizeXor at h
  split at h
  · obtain rfl := Except.ok.inj h
    exact ⟨rfl, .inr ⟨_, rfl⟩⟩
  · cases h
  · obtain rfl := Except.ok.inj h
    exact ⟨rfl, .inl rfl⟩

/-- Giving exclusive ors their forms and then folding linear gates folds linear gates. -/
theorem thinning_of_mapM_synthesizeXor {old : List Gate} (h : old.mapM synthesizeXor = .ok gates)
    (hthin : Gate.Thinning Gate.Recast (·.op.isLinear = true) gates after removed) :
    ∃ removed', Gate.Thinning Gate.Recast (·.op.isLinear = true) old after removed' ∧
      ∀ w, (∀ g ∈ removed', w ∉ g.outs) ↔ ∀ g ∈ removed, w ∉ g.outs := by
  have hxor : List.Forall₂ Gate.Recast old gates :=
    (mapM_eq_ok.mp h).imp fun _ _ ↦ recast_of_synthesizeXor
  obtain ⟨removed', hthin', hP⟩ := Gate.Thinning.trans (.of_forall₂ hxor) hthin
    (fun _ _ _ ↦ Gate.Recast.trans) (fun _ hl ↦ hl) fun _ _ hgm hl ↦ hgm.isLinear hl
  refine ⟨removed', hthin', fun w ↦ ?_⟩
  rw [hP (w ∉ ·.outs) fun g m hgm ↦ by rw [hgm.1]]
  exact and_iff_right nofun

theorem forall_holdsBy_synthesizeXor {old : List Gate} (hold : ∀ g ∈ old, g.WellFormed)
    (h : old.mapM synthesizeXor = .ok gates) :
    (∀ g ∈ old, g.HoldsBy R r) ↔ ∀ a ∈ gates, a.HoldsBy R r := by
  replace h := mapM_eq_ok.mp h
  induction h with
  | nil => exact Iff.rfl
  | cons hga _ ih =>
    obtain ⟨hg, hold⟩ := List.forall_mem_cons.mp hold
    rw [List.forall_mem_cons, List.forall_mem_cons]
    exact and_congr (holdsBy_synthesizeXor hg hga) (ih hold)

/-- Synthesis leaves no product and no exclusive or, and it puts quadratic gates in the places of
gates or removes linear ones.  Every solution stays one, by whatever relation splits, packs and zero
tests are given.  If no linear gate is left then there is exactly one solution from before that
agrees with a given solution afterwards on all wires but the outputs of the removed gates. -/
theorem solutions_of_synthesize {c d : Circuit} {n : Nat} (hc : c.validate = .ok ())
    (h : c.synthesize = .ok (d, n)) :
    (∀ a ∈ d.gates, a.op ≠ .mul ∧ a.op ≠ .xor) ∧
      ∃ removed, Gate.Thinning Gate.Recast (·.op.isLinear = true) c.gates d.gates removed ∧
        ∀ R, (∀ r, c.SatisfiesBy R r → d.SatisfiesBy R r) ∧
          ((∀ a ∈ d.gates, a.op.isLinear = false) → ∀ q, d.SatisfiesBy R q →
            ∃! r, c.SatisfiesBy R r ∧ ∀ w, (∀ g ∈ removed, w ∉ g.outs) → r w = q w) := by
  have hvalid := validate_eq_ok.mp hc
  obtain ⟨-, -, gates, hxor, hsyn⟩ := synthesize_spec hvalid.toWellFormed h
  obtain ⟨houts, hspec⟩ := mapM_synthesizeXor hvalid.gates hxor
  have hgates : ∀ g ∈ gates, g.WellFormed := fun g hg ↦ (hspec g hg).1
  have hnodup : (gates.flatMap Gate.outs).Nodup := houts ▸ (List.nodup_append.mp hvalid.nodup).2.1
  have hholds {R r} : c.SatisfiesBy R r ↔ ∀ g ∈ gates, g.HoldsBy R r :=
    forall_holdsBy_synthesizeXor hvalid.gates hxor
  obtain ⟨removed, hthin⟩ := hsyn.thinning
  obtain ⟨removed', hthin', hdriven⟩ := thinning_of_mapM_synthesizeXor hxor hthin
  refine ⟨fun a ha ↦ ?_, removed', hthin', fun R ↦ ⟨fun r hr ↦ ?_, fun hleft q hq ↦ ?_⟩⟩
  · rcases hsyn.cases a ha with ⟨g, -, f, -, rfl⟩ | ⟨ha, hmul, -⟩
    · exact ⟨nofun, nofun⟩
    · exact ⟨hmul, (hspec a ha).2.1⟩
  · exact hsyn.holdsBy (hholds.mp hr)
  · simp only [hholds, hdriven]
    exact hsyn.existsUnique_solution hgates hnodup hthin hleft hq

/-- The sum in wire 3 is folded into two products and kept for an exclusive or; its multiple in
wire 4 and their difference in wire 9 are only folded. -/
def foldedSum : Circuit where
  inputs := [⟨1, []⟩, ⟨2, []⟩]
  gates := [⟨.add, [1, 2], [3], []⟩, ⟨.constMul (-1), [3], [4], []⟩, ⟨.mul, [3, 4], [5], []⟩,
    ⟨.xor, [3, 1], [6], []⟩, ⟨.split, [5], [7, 8], []⟩, ⟨.sub, [4, 3], [9], []⟩,
    ⟨.mul, [9, 9], [10], []⟩]
  outputs := [6, 10]

theorem solutions_of_synthesize_foldedSum : foldedSum.validate = .ok () ∧
    ∃ d n removed, foldedSum.synthesize = .ok (d, n) ∧ removed.length = 2 ∧
      Gate.Thinning Gate.Recast (·.op.isLinear = true) foldedSum.gates d.gates removed ∧
      ∀ q, d.SatisfiesBy Opcode.Computes q → ∃! r, foldedSum.SatisfiesBy Opcode.Computes r ∧
        ∀ w, (∀ g ∈ removed, w ∉ g.outs) → r w = q w := by
  have hvalid : foldedSum.validate = .ok () := by decide
  obtain ⟨⟨d, n⟩, hd, hP⟩ := exists_ok_of_any (x := foldedSum.synthesize) (P := fun x ↦ decide
    (x.1.gates.length = 5 ∧ ∀ a ∈ x.1.gates, a.op.isLinear = false)) (by decide +kernel)
  obtain ⟨hlength, hleft⟩ := of_decide_eq_true hP
  obtain ⟨-, removed, hthin, hsolutions⟩ := solutions_of_synthesize hvalid hd
  refine ⟨hvalid, d, n, removed, hd, ?_, hthin, (hsolutions Opcode.Computes).2 hleft⟩
  have htotal : d.gates.length + removed.length = 7 := hthin.length
  dsimp only at hlength
  omega

end Circuit

end Quadratize
