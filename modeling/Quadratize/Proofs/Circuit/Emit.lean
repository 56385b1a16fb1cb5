import Quadratize.Circuit.Emit
import Quadratize.Proofs.Circuit.Synthesis
import Quadratize.Proofs.Constraint.Verify

/-!
# Emission

The constraints of a gate say of a witness what the equation of the gate says of an assignment,
except that a split may have any bits that add up to its input, and that the first output of a zero
test is free when the input is zero.
-/

namespace Quadratize

namespace Gate

variable {r : Wire → Scalar} {g : Gate} {pss : List (List Product)}

/-! ## Constraints as equations -/

theorem exists_equations (hg : g.Shaped) : ∃ pss, g.equations = .ok pss := by
  cases hg <;> exact ⟨_, rfl⟩

/-- What the constraints of a gate ask of an assignment. -/
def Constrained (r : Wire → Scalar) (g : Gate) : Prop :=
  match g.op, g.ins, g.outs with
  | .quadratic f, _, [z] => r z = f.eval r
  | .split, [x], bs => (∀ b ∈ bs, r b = 0 ∨ r b = 1) ∧ Scalar.bitSum (bs.map r) = r x
  | .zerop, [x], [m, y] => if r x = 0 then r y = 0 else r m = (r x)⁻¹ ∧ r y = 1
  | _, _, _ => False

theorem splitSum_eq (x : Wire) (bits : List Wire) : splitSum x bits =
    (bits.zipIdx.map fun p ↦ (some p.1, Scalar.twoPow p.2)).foldl (fun a t ↦ a.addTerm t.1 t.2)
      (Affine.monomial x (-1)) := by
  rw [List.foldl_map]
  rfl

theorem eval_splitSum (r : Wire → Scalar) (x : Wire) (bits : List Wire) :
    Affine.eval r (splitSum x bits) = Scalar.bitSum (bits.map r) - r x := by
  have hsum : Scalar.bitSum (bits.map r) =
      (bits.zipIdx.map fun p ↦ Scalar.twoPow p.2 * r p.1).sum := by
    rw [Scalar.bitSum, List.zipIdx_map, List.map_map]
    rfl
  have hmonomial : Sparse.eval (Affine.atKey r) (Affine.monomial x (-1)) = -1 * r x :=
    Affine.eval_monomial r x (-1)
  rw [splitSum_eq, hsum, Affine.eval, Sparse.eval_foldl_addTerm, hmonomial, List.map_map]
  change -1 * r x + (bits.zipIdx.map fun p ↦ Scalar.twoPow p.2 * r p.1).sum = _
  ring

theorem eval_bitProduct (r : Wire → Scalar) (b : Wire) :
    (bitProduct b).eval r = 0 ↔ r b = 0 ∨ r b = 1 := by
  rw [bitProduct, Product.eval, Affine.eval_var, Affine.eval_addTerm_none, Affine.eval_var,
    mul_eq_zero, add_neg_eq_zero]

theorem zerop_iff {x m y : Scalar} :
    (x * m + -1 * y = 0 ∧ (1 + -1 * y) * x = 0) ↔
      if x = 0 then y = 0 else m = x⁻¹ ∧ y = 1 := by
  split_ifs with hx
  · rw [hx, zero_mul, mul_zero, and_iff_left rfl, zero_add, neg_one_mul, neg_eq_zero]
  · constructor
    · rintro ⟨h, h'⟩
      have hy : y = 1 := by
        have hfactor := (mul_eq_zero.mp h').resolve_right hx
        linear_combination -hfactor
      refine ⟨eq_inv_of_mul_eq_one_right ?_, hy⟩
      rw [hy] at h
      linear_combination h
    · rintro ⟨rfl, rfl⟩
      rw [mul_inv_cancel₀ hx]
      exact ⟨by ring, by ring⟩

/-- The equations of a gate say what its constraints ask. -/
theorem equations_iff (hg : g.Shaped) (hop : g.op.IsCanonical) (h : g.equations = .ok pss) :
    (∀ ps ∈ pss, (ps.map (Product.eval r)).sum = 0) ↔ g.Constrained r := by
  cases hg with
  | quadratic f ins z note =>
    obtain rfl := Except.ok.inj h
    have hsum : ((⟨Affine.constant (-1), Affine.var z⟩ :: f.terms).map (Product.eval r)).sum =
        f.eval r - r z := by
      rw [List.map_cons, List.sum_cons, Product.eval, Affine.eval_constant, Affine.eval_var,
        QuadForm.eval]
      ring
    change (∀ ps ∈ [_], _) ↔ r z = f.eval r
    rw [List.forall_mem_singleton, hsum, sub_eq_zero, eq_comm]
  | split x b bs note =>
    obtain rfl := Except.ok.inj h
    have hsum : ([⟨Affine.constant 1, splitSum x (b :: bs)⟩].map (Product.eval r)).sum =
        Scalar.bitSum ((b :: bs).map r) - r x := by
      rw [List.map_singleton, List.sum_singleton, Product.eval, Affine.eval_constant, one_mul,
        eval_splitSum]
    have hbits : (∀ ps ∈ (b :: bs).map ([bitProduct ·]), (ps.map (Product.eval r)).sum = 0) ↔
        ∀ u ∈ b :: bs, r u = 0 ∨ r u = 1 := by
      rw [List.forall_mem_map]
      refine forall₂_congr fun u _ ↦ ?_
      rw [List.map_singleton, List.sum_singleton, eval_bitProduct]
    change (∀ ps ∈ _ :: _, _) ↔
      (∀ u ∈ b :: bs, r u = 0 ∨ r u = 1) ∧ Scalar.bitSum ((b :: bs).map r) = r x
    rw [List.forall_mem_cons, hsum, sub_eq_zero, hbits, and_comm]
  | zerop x m y note =>
    obtain rfl := Except.ok.inj h
    change (∀ ps ∈ [_, _], _) ↔ if r x = 0 then r y = 0 else r m = (r x)⁻¹ ∧ r y = 1
    rw [← zerop_iff]
    simp [Product.eval]
  | _ => rcases hop with ⟨f, hf⟩ | hf | hf <;> cases hf

/-- What the constraints ask, kind by kind. -/
theorem constrained_iff_cases (hg : g.Shaped) (hop : g.op.IsCanonical) :
    g.Constrained r ↔
      (∀ f z, g.op = .quadratic f → g.outs = [z] → r z = f.eval r) ∧
      (∀ x, g.op = .split → g.ins = [x] → (∀ b ∈ g.outs, r b = 0 ∨ r b = 1) ∧
        Scalar.bitSum (g.outs.map r) = r x) ∧
      ∀ x m y, g.op = .zerop → g.ins = [x] → g.outs = [m, y] →
        (r y = if r x = 0 then 0 else 1) ∧ (r x ≠ 0 → r m = (r x)⁻¹) := by
  cases hg with
  | quadratic f ins z note =>
    constructor
    · intro h
      refine ⟨fun f' z' hf hz ↦ ?_, nofun, nofun⟩
      obtain rfl := Opcode.quadratic.inj hf
      obtain rfl := List.singleton_inj.mp hz
      exact h
    · intro h
      exact h.1 f z rfl rfl
  | split x b bs note =>
    constructor
    · intro h
      refine ⟨nofun, fun x' _ hx ↦ ?_, nofun⟩
      obtain rfl := List.singleton_inj.mp hx
      exact h
    · intro h
      exact h.2.1 x rfl rfl
  | zerop x m y note =>
    have hzero : (if r x = 0 then r y = 0 else r m = (r x)⁻¹ ∧ r y = 1) ↔
        (r y = if r x = 0 then 0 else 1) ∧ (r x ≠ 0 → r m = (r x)⁻¹) := by
      split_ifs with hx
      · exact ⟨fun hy ↦ ⟨hy, fun hne ↦ absurd hx hne⟩, And.left⟩
      · exact ⟨fun h ↦ ⟨h.2, fun _ ↦ h.1⟩, fun h ↦ ⟨h.2 hx, h.1⟩⟩
    constructor
    · intro h
      refine ⟨nofun, nofun, fun x' m' y' _ hx hmy ↦ ?_⟩
      obtain rfl := List.singleton_inj.mp hx
      obtain ⟨rfl, hy⟩ := List.cons.inj hmy
      obtain rfl := List.singleton_inj.mp hy
      exact hzero.mp h
    · intro h
      exact hzero.mpr (h.2.2 x m y rfl rfl rfl)
  | _ => rcases hop with ⟨f, hf⟩ | hf | hf <;> cases hf

/-! ## Wires of constraints -/

theorem mem_vars_var {x w : Wire} (h : w ∈ Affine.vars (Affine.var x)) : w = x :=
  Affine.mem_vars_monomial h

theorem mem_vars_addTerm_none {a : Affine Wire} {c : Scalar} {w : Wire}
    (h : w ∈ Affine.vars (a.addTerm none c)) : w ∈ Affine.vars a :=
  Affine.mem_vars.mpr ((Sparse.mem_keys_addTerm (Affine.mem_vars.mp h)).resolve_left nofun)

theorem mem_vars_splitSum {x w : Wire} {bits : List Wire}
    (h : w ∈ Affine.vars (splitSum x bits)) : w = x ∨ w ∈ bits := by
  rw [splitSum_eq] at h
  rcases Sparse.mem_keys_foldl_addTerm (Affine.mem_vars.mp h) with h | ⟨t, ht, he⟩
  · exact .inl (Affine.mem_vars_monomial (Affine.mem_vars.mpr h))
  · obtain ⟨p, hp, rfl⟩ := List.mem_map.mp ht
    obtain rfl := Option.some.inj he
    exact .inr (List.fst_mem_of_mem_zipIdx hp)

/-- The constraints mention only the wires of the gate. -/
theorem mem_of_equations (hg : g.WellFormed) (h : g.equations = .ok pss) {ps : List Product}
    (hps : ps ∈ pss) {p : Product} (hp : p ∈ ps) {w : Wire} (hw : w ∈ p.wires) :
    w ∈ g.ins ++ g.outs := by
  have hform := hg.form
  have hconst {c : Scalar} (h : w ∈ Affine.vars (Affine.constant c)) : False := by
    rw [Affine.vars_constant] at h
    cases h
  cases hg.shaped with
  | quadratic f ins z note =>
    obtain rfl := Except.ok.inj h
    obtain rfl := List.mem_singleton.mp hps
    rcases List.mem_cons.mp hp with rfl | hp
    · rcases Product.mem_wires.mp hw with hw | hw
      · exact (hconst hw).elim
      · exact List.mem_append_right _ (List.mem_singleton.mpr (mem_vars_var hw))
    · exact List.mem_append_left _ (hform w (QuadForm.mem_wires.mpr ⟨p, hp, hw⟩))
  | split x b bs note =>
    obtain rfl := Except.ok.inj h
    rcases List.mem_cons.mp hps with rfl | hps
    · obtain rfl := List.mem_singleton.mp hp
      rcases Product.mem_wires.mp hw with hw | hw
      · exact (hconst hw).elim
      · exact List.mem_append.mpr ((mem_vars_splitSum hw).imp_left List.mem_singleton.mpr)
    · obtain ⟨u, hu, rfl⟩ := List.mem_map.mp hps
      obtain rfl := List.mem_singleton.mp hp
      have hwu : w = u := (Product.mem_wires.mp hw).elim mem_vars_var fun hw ↦
        mem_vars_var (mem_vars_addTerm_none hw)
      exact List.mem_append_right _ (hwu ▸ hu)
  | zerop x m y note =>
    obtain rfl := Except.ok.inj h
    have hxmy : w = x ∨ w = m ∨ w = y := by
      rcases List.mem_cons.mp hps with rfl | hps
      · rcases List.mem_pair.mp hp with rfl | rfl
        · rcases Product.mem_wires.mp hw with hw | hw
          · exact .inl (mem_vars_var hw)
          · exact .inr (.inl (mem_vars_var hw))
        · rcases Product.mem_wires.mp hw with hw | hw
          · exact (hconst hw).elim
          · exact .inr (.inr (mem_vars_var hw))
      · obtain rfl := List.mem_singleton.mp hps
        obtain rfl := List.mem_singleton.mp hp
        rcases Product.mem_wires.mp hw with hw | hw
        · rcases Sparse.mem_keys_addTerm (Affine.mem_vars.mp hw) with he | hw
          · exact .inr (.inr (Option.some.inj he))
          · exact (hconst (Affine.mem_vars.mpr hw)).elim
        · exact .inl (mem_vars_var hw)
    simpa using hxmy
  | _ =>
    obtain rfl := Except.ok.inj h
    cases hps

theorem ne_nil_of_equations (hg : g.Shaped) (h : g.equations = .ok pss) {ps : List Product}
    (hps : ps ∈ pss) : ps ≠ [] := by
  rintro rfl
  cases hg with
  | quadratic f ins z note =>
    obtain rfl := Except.ok.inj h
    cases List.mem_singleton.mp hps
  | split x b bs note =>
    obtain rfl := Except.ok.inj h
    rcases List.mem_cons.mp hps with hps | hps
    · cases hps
    · obtain ⟨u, -, hps⟩ := List.mem_map.mp hps
      cases hps
  | zerop x m y note =>
    obtain rfl := Except.ok.inj h
    rcases List.mem_pair.mp hps with hps | hps
    · cases hps
    · cases hps
  | _ =>
    obtain rfl := Except.ok.inj h
    cases hps

end Gate

/-! ## Rows -/

/-- The value of a wire in a witness. -/
def Witness.wire (w : Witness) (x : Wire) : Scalar :=
  w.value (slotOf (some x))

theorem eval_toRowPair {w : Witness} (hone : w.value (slotOf none) = 1) (p : Product) :
    RowPair.eval w.value p.toRowPair = p.eval w.wire := by
  have hkeys : w.value ∘ slotOf = Affine.atKey w.wire := by
    funext k
    cases k with
    | none => exact hone
    | some x => rfl
  rw [RowPair.eval, Product.toRowPair, Affine.toRow, Affine.toRow, Sparse.eval_map,
    Sparse.eval_map, hkeys]
  rfl

theorem mem_slots_toRowPair {p : Product} {i : Slot} (h : i ∈ p.toRowPair.slots) :
    i = slotOf none ∨ ∃ x ∈ p.wires, i = slotOf (some x) := by
  have hrow {a : Affine Wire} (h : i ∈ (Affine.toRow a).keys) :
      i = slotOf none ∨ ∃ x ∈ Affine.vars a, i = slotOf (some x) := by
    obtain ⟨k, hk, rfl⟩ := Sparse.mem_keys_map h
    cases k with
    | none => exact .inl rfl
    | some x => exact .inr ⟨x, Affine.mem_vars.mpr hk, rfl⟩
  rcases List.mem_append.mp h with h | h
  · exact (hrow h).imp_right fun ⟨x, hx, he⟩ ↦ ⟨x, Product.mem_wires.mpr (.inl hx), he⟩
  · exact (hrow h).imp_right fun ⟨x, hx, he⟩ ↦ ⟨x, Product.mem_wires.mpr (.inr hx), he⟩

/-- The first slot holds one, if there is a slot. -/
theorem Witness.get?_zero_iff {w : Witness} :
    (∀ a ∈ w.get? 0, a = 1) ↔ w.values = [] ∨ w.get? 0 = some 1 := by
  rw [Witness.get?]
  cases w.values with
  | nil => simp
  | cons a rest => simp

/-! ## All gates -/

namespace Circuit

variable {c : Circuit} {s : ConstraintSystem}

theorem exists_emit (hgates : ∀ g ∈ c.gates, g.Shaped) : ∃ s, c.emit = .ok s := by
  obtain ⟨kss, hkss⟩ := exists_mapM_ok (f := Gate.constraints) fun g hg ↦ by
    obtain ⟨pss, hpss⟩ := Gate.exists_equations (hgates g hg)
    exact ⟨_, map_eq_ok.mpr ⟨pss, hpss, rfl⟩⟩
  exact ⟨_, bind_eq_ok.mpr ⟨kss, hkss, rfl⟩⟩

theorem numVariables_emit (h : c.emit = .ok s) : s.numVariables = c.numVariables := by
  obtain ⟨kss, -, h⟩ := bind_eq_ok.mp h
  rw [← Except.ok.inj h]

/-- The constraints of a circuit are those of its gates. -/
theorem mem_constraints_emit (h : c.emit = .ok s) {k : Constraint} : k ∈ s.constraints ↔
    ∃ g ∈ c.gates, ∃ pss, g.equations = .ok pss ∧ ∃ ps ∈ pss, ps.map Product.toRowPair = k := by
  obtain ⟨kss, hkss, h⟩ := bind_eq_ok.mp h
  obtain rfl := Except.ok.inj h
  change k ∈ kss.flatten ↔ _
  rw [List.mem_flatten]
  constructor
  · rintro ⟨ks, hks, hk⟩
    obtain ⟨g, hg, hconstraints⟩ := exists_of_forall₂ (mapM_eq_ok.mp hkss) hks
    obtain ⟨pss, hpss, rfl⟩ := map_eq_ok.mp hconstraints
    exact ⟨g, hg, pss, hpss, List.mem_map.mp hk⟩
  · rintro ⟨g, hg, pss, hpss, hk⟩
    obtain ⟨ks, hks, hconstraints⟩ := exists_mem_of_mapM_eq_ok hkss hg
    obtain ⟨pss', hpss', rfl⟩ := map_eq_ok.mp hconstraints
    obtain rfl := Except.ok.inj (hpss.symm.trans hpss')
    exact ⟨_, hks, List.mem_map.mpr hk⟩

section

variable (hgates : ∀ g ∈ c.gates, g.WellFormed) (hids : ∀ w ∈ c.wires, w.id < c.numVariables)
include hgates hids

/-- A circuit with a gate has a wire. -/
theorem numVariables_pos {g : Gate} (hg : g ∈ c.gates) : 0 < c.numVariables := by
  obtain ⟨w, hw⟩ := (hgates g hg).shaped.exists_mem_outs
  exact Nat.zero_lt_of_lt (hids w (mem_wires_of_gate hg (.inr hw)))

theorem valid_emit (h : c.emit = .ok s) : s.Valid := by
  refine ⟨fun k hk ↦ ?_, fun k hk q hq i hi ↦ ?_⟩
  all_goals obtain ⟨g, hg, pss, hpss, ps, hps, rfl⟩ := (mem_constraints_emit h).mp hk
  · exact fun h ↦
      Gate.ne_nil_of_equations (hgates g hg).shaped hpss hps (List.map_eq_nil_iff.mp h)
  · obtain ⟨p, hp, rfl⟩ := List.mem_map.mp hq
    rw [numVariables_emit h]
    rcases mem_slots_toRowPair hi with rfl | ⟨x, hx, rfl⟩
    · exact numVariables_pos hgates hids hg
    · have hmem := List.mem_append.mp (Gate.mem_of_equations (hgates g hg) hpss hps hp hx)
      exact hids x (mem_wires_of_gate hg hmem)

/-- A witness satisfies the constraints of a circuit if and only if it holds one in its first slot
and satisfies what each gate asks. -/
theorem verify_emit (h : c.emit = .ok s) (hkind : ∀ g ∈ c.gates, g.op.IsCanonical) {w : Witness}
    (hsize : c.numVariables ≤ w.size) :
    s.verify w = .ok () ↔ (∀ a ∈ w.get? 0, a = 1) ∧ ∀ g ∈ c.gates, g.Constrained w.wire := by
  rw [(valid_emit hgates hids h).verify_eq_ok (numVariables_emit h ▸ hsize)]
  refine and_congr_right fun hone ↦ ?_
  have heval {g : Gate} (hg : g ∈ c.gates) :
      RowPair.eval w.value ∘ Product.toRowPair = Product.eval w.wire := by
    have hpos : (slotOf none).val < w.size := (numVariables_pos hgates hids hg).trans_le hsize
    exact funext (eval_toRowPair (hone _ (Witness.get?_of_lt hpos)))
  constructor
  · intro hsums g hg
    obtain ⟨pss, hpss⟩ := Gate.exists_equations (hgates g hg).shaped
    refine (Gate.equations_iff (hgates g hg).shaped (hkind g hg) hpss).mp fun ps hps ↦ ?_
    have hsum := hsums _ ((mem_constraints_emit h).mpr ⟨g, hg, pss, hpss, ps, hps, rfl⟩)
    rwa [List.map_map, heval hg] at hsum
  · intro hconstrained k hk
    obtain ⟨g, hg, pss, hpss, ps, hps, rfl⟩ := (mem_constraints_emit h).mp hk
    rw [List.map_map, heval hg]
    exact (Gate.equations_iff (hgates g hg).shaped (hkind g hg) hpss).mpr (hconstrained g hg) ps hps

end

/-- Emission succeeds, and it is faithful gate by gate.  A witness with a slot for every wire
satisfies the emitted constraints if and only if its first slot, if there is one, holds one, the
output of each quadratic gate has the value of the form, the outputs of each split are bits that add
up to its input, and the outputs of each zero test mark whether its input is zero and invert it if
it is not. -/
theorem verify_emit_iff_gates {w : Witness} (hvalid : c.validate = .ok ())
    (hkind : ∀ g ∈ c.gates, (∃ f, g.op = .quadratic f) ∨ g.op = .split ∨ g.op = .zerop)
    (hids : ∀ x ∈ c.wires, x.id < c.numVariables) (hsize : c.numVariables ≤ w.size) :
    ∃ s, c.emit = .ok s ∧ (s.verify w = .ok () ↔
      (w.values = [] ∨ w.get? 0 = some 1) ∧ ∀ g ∈ c.gates,
        (∀ f z, g.op = .quadratic f → g.outs = [z] → w.wire z = f.eval w.wire) ∧
        (∀ x, g.op = .split → g.ins = [x] → (∀ b ∈ g.outs, w.wire b = 0 ∨ w.wire b = 1) ∧
          Scalar.bitSum (g.outs.map w.wire) = w.wire x) ∧
        ∀ x m y, g.op = .zerop → g.ins = [x] → g.outs = [m, y] →
          (w.wire y = if w.wire x = 0 then 0 else 1) ∧
            (w.wire x ≠ 0 → w.wire m = (w.wire x)⁻¹)) := by
  have hgates := (validate_eq_ok.mp hvalid).gates
  obtain ⟨s, hs⟩ := exists_emit fun g hg ↦ (hgates g hg).shaped
  refine ⟨s, hs, ?_⟩
  rw [verify_emit hgates hids hs hkind hsize, Witness.get?_zero_iff]
  refine and_congr_right fun _ ↦ forall₂_congr fun g hg ↦ ?_
  exact Gate.constrained_iff_cases (hgates g hg).shaped (hkind g hg)

/-- A square that is split into two bits, beside a zero test. -/
def squareBits : Circuit where
  inputs := [⟨0, []⟩, ⟨1, []⟩]
  gates := [⟨.quadratic (.product (Affine.var 1) (Affine.var 1)), [1], [2], []⟩,
    ⟨.split, [2], [3, 4], []⟩, ⟨.zerop, [3], [5, 6], []⟩]
  outputs := [4]

/-- The input is the negative of one. -/
def squareBitsWitness : Witness := ⟨[1, -1, 1, 1, 0, 1, 1]⟩

theorem verify_emit_squareBits : squareBits.validate = .ok () ∧
    squareBits.numVariables = squareBitsWitness.size ∧
    ∃ s, squareBits.emit = .ok s ∧ s.verify squareBitsWitness = .ok () := by
  have hvalid : squareBits.validate = .ok () := by decide +kernel
  have hsize : squareBits.numVariables = squareBitsWitness.size := by decide +kernel
  have hkinds : ∀ g ∈ squareBits.gates,
      (∃ f, g.op = .quadratic f) ∨ g.op = .split ∨ g.op = .zerop := by
    refine List.forall_mem_cons.mpr ⟨.inl ⟨_, rfl⟩, List.forall_mem_cons.mpr ⟨.inr (.inl rfl), ?_⟩⟩
    exact List.forall_mem_singleton.mpr (.inr (.inr rfl))
  have hids : ∀ x ∈ squareBits.wires, x.id < squareBits.numVariables := by decide +kernel
  obtain ⟨s, hs, hverify⟩ := verify_emit_iff_gates hvalid hkinds hids hsize.le
  refine ⟨hvalid, hsize, s, hs, hverify.mpr ⟨.inr rfl, ?_⟩⟩
  simp only [squareBits, List.forall_mem_cons]
  refine ⟨⟨fun f z hf hz ↦ ?_, nofun, nofun⟩, ⟨nofun, fun x _ hx ↦ ?_, nofun⟩,
    ⟨nofun, nofun, fun x m y _ hx hmy ↦ ?_⟩, List.forall_mem_nil _⟩
  · obtain rfl := Opcode.quadratic.inj hf
    obtain rfl := List.singleton_inj.mp hz
    rw [QuadForm.eval_product, Affine.eval_var]
    decide +kernel
  · obtain rfl := List.singleton_inj.mp hx
    decide +kernel
  · obtain rfl := List.singleton_inj.mp hx
    obtain ⟨rfl, hy⟩ := List.cons.inj hmy
    obtain rfl := List.singleton_inj.mp hy
    refine ⟨by decide +kernel, fun _ ↦ ?_⟩
    decide +kernel

end Circuit

end Quadratize
