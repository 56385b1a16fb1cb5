import Quadratize.Circuit.ZeroGates
import Quadratize.Proofs.Circuit.Synthesis
import Quadratize.Proofs.Circuit.Thinning
import Quadratize.Proofs.Form.Simplify

/-!
# Zero gates

The output of a gate with the zero form is zero whenever the gates hold, so zero may take its place
in the forms of the gates that read it.  The gates hold exactly where those that are left do and the
removed ones drive zero.  What a sweep leaves drives the same declared outputs and reads nothing
that a removed gate drove.  A sweep fails only at a split or a zero test that reads the output of a
zero gate.
-/

namespace Quadratize

/-- Whether the gate computes a quadratic form. -/
def Gate.HasForm (g : Gate) : Prop :=
  ∃ f, g.op = .quadratic f

/-- A gate, or a gate with a form and the same one with another form. -/
def Gate.Reformed (g a : Gate) : Prop :=
  a = g ∨ g.HasForm ∧ ∃ f, a = g.withForm f

namespace Gate.Reformed

variable {g a b : Gate}

theorem outs (h : g.Reformed a) : a.outs = g.outs := by
  rcases h with rfl | ⟨-, f, rfl⟩
  · rfl
  · rfl

theorem trans (h : g.Reformed a) (h' : a.Reformed b) : g.Reformed b := by
  rcases h' with rfl | ⟨ha, f, rfl⟩
  · exact h
  · rcases h with rfl | ⟨hg, f', rfl⟩
    · exact .inr ⟨ha, f, rfl⟩
    · exact .inr ⟨hg, f, rfl⟩

theorem hasForm (h : g.Reformed a) (ha : a.HasForm) : g.HasForm := by
  rcases h with rfl | ⟨hg, -⟩
  · exact ha
  · exact hg

end Gate.Reformed

namespace Circuit

variable {start gates after : List Gate} {g a b : Gate} {w : Wire} {outputs : List Wire}

/-! ## Gates with wires replaced by zero -/

/-- A gate in the place of another one: its form may have fewer wires. -/
structure Zeroed (g a : Gate) : Prop where
  wellFormed : a.WellFormed
  ins : ∀ w ∈ a.ins, w ∈ g.ins
  reformed : g.Reformed a

theorem Zeroed.refl (hg : g.WellFormed) : Zeroed g g :=
  ⟨hg, fun _ hw ↦ hw, .inl rfl⟩

theorem Zeroed.trans (h : Zeroed g a) (h' : Zeroed a b) : Zeroed g b where
  wellFormed := h'.wellFormed
  ins := fun w hw ↦ h.ins w (h'.ins w hw)
  reformed := h.reformed.trans h'.reformed

theorem Zeroed.outs (h : Zeroed g a) : a.outs = g.outs :=
  h.reformed.outs

theorem Zeroed.isLinear (h : Zeroed g a) : a.op.isLinear = g.op.isLinear := by
  rcases h.reformed with rfl | ⟨⟨f, hf⟩, f', rfl⟩
  · rfl
  · rw [hf]
    rfl

theorem Zeroed.isCanonical (h : Zeroed g a) (hg : g.op.IsCanonical) : a.op.IsCanonical := by
  rcases h.reformed with rfl | ⟨-, f, rfl⟩
  · exact hg
  · exact .inl ⟨f, rfl⟩

/-- Zero may take the place of a wire that is zero. -/
theorem readZero_spec (hg : g.WellFormed) (h : readZero w g = .ok a) :
    Zeroed g a ∧ w ∉ a.ins ∧ ∀ r, r w = 0 → (g.Holds r ↔ a.Holds r) := by
  have hform := hg.form
  cases hg.shaped with
  | quadratic f ins z note =>
    obtain rfl := Except.ok.inj h
    refine ⟨⟨⟨.quadratic _ _ z note, fun v hv ↦ hv⟩, fun v hv ↦ ?_,
      .inr ⟨⟨f, rfl⟩, _, rfl⟩⟩, fun hw ↦ ?_, fun r hw ↦ ?_⟩
    · exact hform v (QuadForm.mem_wires_substituteZero (QuadForm.mem_wires_simplify hv)).1
    · exact (QuadForm.mem_wires_substituteZero (QuadForm.mem_wires_simplify hw)).2 rfl
    · change r z = f.eval r ↔ r z = ((f.substituteZero w).simplify).eval r
      rw [QuadForm.eval_simplify, QuadForm.eval_substituteZero hw]
  | _ => cases h

/-- The zero form stays zero. -/
theorem readZero_zero (hg : g.op = .quadratic 0) (h : readZero w g = .ok a) :
    a.op = .quadratic 0 := by
  rw [readZero, hg] at h
  obtain rfl := Except.ok.inj h
  rfl

/-- What replacing a wire does to the gate at a position. -/
theorem getElem?_zeroWire {p : Nat} (h : zeroWire start w gates = .ok after)
    (hg : start[p]? = some g) (ha : gates[p]? = some a) :
    ∃ b, after[p]? = some b ∧ (if w ∈ g.ins then readZero w a else .ok a) = .ok b := by
  have hforall := mapM_eq_ok.mp h
  have hzip : (start.zip gates)[p]? = some (g, a) := List.getElem?_zip_eq_some.mpr ⟨hg, ha⟩
  obtain ⟨hlt, hget⟩ := List.getElem?_eq_some_iff.mp hzip
  have hlt' : p < after.length := hforall.length_eq ▸ hlt
  have hb := hforall.get hlt hlt'
  rw [List.get_eq_getElem, hget] at hb
  exact ⟨_, List.getElem?_eq_getElem hlt', hb⟩

theorem zeroWire_spec (hgates : List.Forall₂ Zeroed start gates)
    (h : zeroWire start w gates = .ok after) :
    List.Forall₂ Zeroed start after ∧
      (∀ a ∈ after, w ∉ a.ins ∧ ∃ g ∈ gates, ∀ v ∈ a.ins, v ∈ g.ins) ∧
      ∀ r, r w = 0 → ((∀ g ∈ gates, g.Holds r) ↔ ∀ a ∈ after, a.Holds r) := by
  replace h := mapM_eq_ok.mp h
  induction hgates generalizing after with
  | nil =>
    obtain rfl := List.forall₂_nil_left_iff.mp h
    exact ⟨.nil, nofun, fun _ _ ↦ Iff.rfl⟩
  | @cons old g start gates hg _ ih =>
    obtain ⟨a, rest, ha, hrest, rfl⟩ := List.forall₂_cons_left_iff.mp h
    obtain ⟨hzeroed, hreads, hholds⟩ := ih hrest
    obtain ⟨hold, hunread, hhold⟩ :
        Zeroed g a ∧ w ∉ a.ins ∧ ∀ r, r w = 0 → (g.Holds r ↔ a.Holds r) := by
      dsimp only at ha
      split_ifs at ha with hw
      · exact readZero_spec hg.wellFormed ha
      · obtain rfl := Except.ok.inj ha
        exact ⟨.refl hg.wellFormed, fun hmem ↦ hw (hg.ins w hmem), fun r _ ↦ Iff.rfl⟩
    refine ⟨.cons (hg.trans hold) hzeroed, List.forall_mem_cons.mpr ⟨?_, fun b hb ↦ ?_⟩,
      fun r hw ↦ ?_⟩
    · exact ⟨hunread, g, List.mem_cons_self, hold.ins⟩
    · obtain ⟨hunread, d, hd, hins⟩ := hreads b hb
      exact ⟨hunread, d, List.mem_cons_of_mem _ hd, hins⟩
    · rw [List.forall_mem_cons, List.forall_mem_cons]
      exact and_congr (hhold r hw) (hholds r hw)

/-- Zero cannot take the place of a wire in a gate without a form. -/
theorem zeroWire_eq_error {e : CircuitError} (hgates : List.Forall₂ Zeroed start gates)
    (hkinds : ∀ g ∈ start, g.op.IsCanonical) (h : zeroWire start w gates = .error e) :
    ∃ g ∈ gates, (g.op = .split ∨ g.op = .zerop) ∧ w ∈ g.ins ∧ e = .violation g (.readsZero w) := by
  obtain ⟨before, ⟨old, g⟩, after, hsplit, -, h⟩ := mapM_eq_error.mp h
  have hmem : (old, g) ∈ start.zip gates :=
    hsplit ▸ List.mem_append_right before List.mem_cons_self
  have hzeroed : Zeroed old g := List.forall₂_zip hgates hmem
  have hkind := hzeroed.isCanonical (hkinds old (List.of_mem_zip hmem).1)
  dsimp only at h
  split_ifs at h with hw
  refine ⟨g, (List.of_mem_zip hmem).2, ?_⟩
  unfold readZero at h
  split at h
  · cases h
  · rename_i hop
    refine ⟨hkind.resolve_left fun ⟨f, hf⟩ ↦ hop f hf, ?_, (Except.error.inj h).symm⟩
    rcases hzeroed.reformed with rfl | ⟨-, f, rfl⟩
    · exact hw
    · exact absurd rfl (hop f)

/-! ## Sweeps -/

/-- A zero gate has the zero form and drives no declared output. -/
theorem isZeroGate_iff : isZeroGate outputs g = true ↔
    g.op = .quadratic 0 ∧ ∀ w ∈ g.outs, w ∉ outputs := by
  unfold isZeroGate
  split
  · rename_i f hop
    rw [Bool.and_eq_true, Bool.not_eq_true', List.any_eq_false, hop, Opcode.quadratic.injEq]
    refine and_congr ⟨fun hf ↦ QuadForm.ext (List.isEmpty_iff.mp hf), ?_⟩ ?_
    · rintro rfl
      rfl
    · simp only [decide_eq_true_eq]
  · rename_i hop
    exact ⟨nofun, fun h ↦ absurd h.1 (hop 0)⟩

/-- A gate with the zero form holds where it drives zero. -/
theorem holds_zero_iff (hg : g.WellFormed) (hop : g.op = .quadratic 0) (r : Wire → Scalar) :
    g.Holds r ↔ ∀ z ∈ g.outs, r z = 0 := by
  cases hg.shaped with
  | quadratic f ins z note =>
    obtain rfl := Opcode.quadratic.inj hop
    rw [List.forall_mem_singleton]
    exact Iff.rfl
  | _ => cases hop

/-- What a sweep preserves. -/
structure Sweeping (outputs : List Wire) (start : List Gate) (s : ZeroSweep) : Prop where
  gates : List.Forall₂ Zeroed start s.gates
  holds : ∀ r, (∀ g ∈ start, g.Holds r) ↔ ∀ a ∈ s.gates, a.Holds r
  zero : ∀ p ∈ s.removed, ∃ a, s.gates[p]? = some a ∧ a.op = .quadratic 0
  removed : ∀ p ∈ s.removed, ∀ g, start[p]? = some g → ∀ w ∈ g.outs, w ∉ outputs
  unread : ∀ p ∈ s.removed, ∀ g, start[p]? = some g → ∀ w ∈ g.outs, ∀ a ∈ s.gates, w ∉ a.ins

theorem zeroed_of_getElem? (h : List.Forall₂ Zeroed start gates) {p : Nat}
    (hg : start[p]? = some g) (ha : gates[p]? = some a) : Zeroed g a := by
  have hzip : (start.zip gates)[p]? = some (g, a) := List.getElem?_zip_eq_some.mpr ⟨hg, ha⟩
  exact List.forall₂_zip h (List.mem_of_getElem? hzip)

theorem exists_zeroed (h : List.Forall₂ Zeroed start gates) {p : Nat} (ha : gates[p]? = some a) :
    ∃ g, start[p]? = some g ∧ Zeroed g a := by
  obtain ⟨hlt, -⟩ := List.getElem?_eq_some_iff.mp ha
  have hg := List.getElem?_eq_getElem (h.length_eq ▸ hlt : p < start.length)
  exact ⟨_, hg, zeroed_of_getElem? h hg ha⟩

theorem zeroed_of_mem (h : List.Forall₂ Zeroed start gates) (ha : a ∈ gates) :
    ∃ g ∈ start, Zeroed g a := by
  obtain ⟨p, hp⟩ := List.mem_iff_getElem?.mp ha
  obtain ⟨g, hg, hga⟩ := exists_zeroed h hp
  exact ⟨g, List.mem_of_getElem? hg, hga⟩

theorem flatMap_outs_of_zeroed (h : List.Forall₂ Zeroed start gates) :
    gates.flatMap Gate.outs = start.flatMap Gate.outs := by
  induction h with
  | nil => rfl
  | cons hg _ ih => rw [List.flatMap_cons, List.flatMap_cons, hg.outs, ih]

/-- At a position a sweep either leaves everything as it is, or it removes a zero gate and puts zero
in the place of what the gate drives. -/
theorem sweepZero_cases {s t : ZeroSweep} {p : Nat} (hgates : List.Forall₂ Zeroed start s.gates)
    (ht : sweepZero outputs start s p = .ok t) :
    (t = s ∧ ∀ a, s.gates[p]? = some a → isZeroGate outputs a = false) ∨
      ∃ a z, s.gates[p]? = some a ∧ isZeroGate outputs a = true ∧ a.outs = [z] ∧
        t.removed = p :: s.removed ∧ zeroWire start z s.gates = .ok t.gates := by
  unfold sweepZero at ht
  split at ht
  · cases ht
  · rename_i a hp
    split_ifs at ht with hzero
    · obtain ⟨hop, -⟩ := isZeroGate_iff.mp hzero
      obtain ⟨z, hz⟩ : ∃ z, a.outs = [z] := by
        obtain ⟨_, _, hza⟩ := zeroed_of_mem hgates (List.mem_of_getElem? hp)
        cases hza.wellFormed.shaped with
        | quadratic f ins z note => exact ⟨z, rfl⟩
        | _ => cases hop
      rw [hz, List.head?_cons] at ht
      obtain ⟨gates, hzeroed, ht⟩ := bind_eq_ok.mp ht
      obtain rfl := Except.ok.inj ht
      exact .inr ⟨a, z, hp, hzero, hz, rfl, hzeroed⟩
    · refine .inl ⟨(Except.ok.inj ht).symm, fun b hb ↦ ?_⟩
      obtain rfl := Option.some.inj (hp.symm.trans hb)
      exact Bool.eq_false_iff.mpr hzero

/-- Gates that have the zero form keep it. -/
theorem op_zeroWire {gates' : List Gate} {z : Wire} {q : Nat} {b : Gate}
    (h : List.Forall₂ Zeroed start gates) (hgates : zeroWire start z gates = .ok gates')
    (hb : gates[q]? = some b) (hop : b.op = .quadratic 0) :
    ∃ b', gates'[q]? = some b' ∧ b'.op = .quadratic 0 := by
  obtain ⟨g, hg, -⟩ := exists_zeroed h hb
  obtain ⟨b', hb', hread⟩ := getElem?_zeroWire hgates hg hb
  refine ⟨b', hb', ?_⟩
  split_ifs at hread
  · exact readZero_zero hop hread
  · exact Except.ok.inj hread ▸ hop

theorem Sweeping.step {s t : ZeroSweep} {p : Nat} (h : Sweeping outputs start s)
    (ht : sweepZero outputs start s p = .ok t) : Sweeping outputs start t := by
  obtain ⟨rfl, -⟩ | ⟨a, z, hp, hzero, hz, hremoved, hgates⟩ := sweepZero_cases h.gates ht
  · exact h
  obtain ⟨hop, hout⟩ := isZeroGate_iff.mp hzero
  obtain ⟨hzeroed, hreads, hstep⟩ := zeroWire_spec h.gates hgates
  obtain ⟨g, hg, hga⟩ := exists_zeroed h.gates hp
  refine ⟨hzeroed, fun r ↦ ?_, fun q hq ↦ ?_, fun q hq g hg' w hw ↦ ?_,
    fun q hq g hg' w hw b hb ↦ ?_⟩
  · have hdrives {a : Gate} (ha : a.WellFormed) (hop : a.op = .quadratic 0) (hz : a.outs = [z])
        (hr : a.Holds r) : r z = 0 :=
      (holds_zero_iff ha hop r).mp hr z (hz ▸ List.mem_singleton_self z)
    rw [h.holds r]
    constructor
    · intro hs
      have ha := hs a (List.mem_of_getElem? hp)
      exact (hstep r (hdrives hga.wellFormed hop hz ha)).mp hs
    · intro ht
      obtain ⟨b, hb, hbop⟩ := op_zeroWire h.gates hgates hp hop
      have hgb := zeroed_of_getElem? hzeroed hg hb
      have hbz : b.outs = [z] := hgb.outs.trans (hga.outs.symm.trans hz)
      exact (hstep r (hdrives hgb.wellFormed hbop hbz (ht b (List.mem_of_getElem? hb)))).mpr ht
  · rcases List.mem_cons.mp (hremoved ▸ hq) with rfl | hq
    · exact op_zeroWire h.gates hgates hp hop
    · obtain ⟨b, hb, hbop⟩ := h.zero q hq
      exact op_zeroWire h.gates hgates hb hbop
  · rcases List.mem_cons.mp (hremoved ▸ hq) with rfl | hq
    · exact hout w ((zeroed_of_getElem? h.gates hg' hp).outs ▸ hw)
    · exact h.removed q hq g hg' w hw
  · obtain ⟨hunread, d, hd, hins⟩ := hreads b hb
    rcases List.mem_cons.mp (hremoved ▸ hq) with rfl | hq
    · rw [← (zeroed_of_getElem? h.gates hg' hp).outs, hz] at hw
      exact List.mem_singleton.mp hw ▸ hunread
    · exact fun hwb ↦ h.unread q hq g hg' w hw d hd (hins w hwb)

/-- What is left of gates when zero gates have been removed. -/
structure WithoutZeros (outputs : List Wire) (before after : List Gate) : Prop where
  outs : (after.flatMap Gate.outs).Sublist (before.flatMap Gate.outs)
  gates : ∀ a ∈ after, ∃ g ∈ before, Zeroed g a
  solutions : ∃ removed, Gate.Thinning Gate.Reformed Gate.HasForm before after removed ∧
    ∀ r, (∀ g ∈ before, g.Holds r) ↔
      (∀ a ∈ after, a.Holds r) ∧ ∀ g ∈ removed, ∀ z ∈ g.outs, r z = 0
  outputs : ∀ w ∈ outputs, w ∈ before.flatMap Gate.outs → w ∈ after.flatMap Gate.outs
  reads : ∀ a ∈ after, ∀ w ∈ a.ins, w ∈ before.flatMap Gate.outs → w ∈ after.flatMap Gate.outs

theorem WithoutZeros.holds (h : WithoutZeros outputs gates after) {r : Wire → Scalar}
    (hr : ∀ g ∈ gates, g.Holds r) : ∀ a ∈ after, a.Holds r := by
  obtain ⟨removed, -, hiff⟩ := h.solutions
  exact ((hiff r).mp hr).1

theorem WithoutZeros.refl (hgates : ∀ g ∈ gates, g.WellFormed) :
    WithoutZeros outputs gates gates where
  outs := .refl _
  gates := fun a ha ↦ ⟨a, ha, .refl (hgates a ha)⟩
  solutions := ⟨[], .of_forall₂ (List.forall₂_same.mpr fun _ _ ↦ .inl rfl),
    fun _ ↦ (and_iff_left nofun).symm⟩
  outputs := fun _ _ hw ↦ hw
  reads := fun _ _ _ _ hw ↦ hw

theorem WithoutZeros.trans (h : WithoutZeros outputs start gates)
    (h' : WithoutZeros outputs gates after) : WithoutZeros outputs start after where
  outs := h'.outs.trans h.outs
  gates := by
    intro b hb
    obtain ⟨a, ha, hab⟩ := h'.gates b hb
    obtain ⟨g, hg, hga⟩ := h.gates a ha
    exact ⟨g, hg, hga.trans hab⟩
  solutions := by
    obtain ⟨first, hfirst, hiff⟩ := h.solutions
    obtain ⟨second, hsecond, hiff'⟩ := h'.solutions
    obtain ⟨removed, hthin, hP⟩ :=
      hfirst.trans hsecond (fun _ _ _ ↦ Gate.Reformed.trans) (fun _ hg ↦ hg)
        fun _ _ hgm hm ↦ hgm.hasForm hm
    refine ⟨removed, hthin, fun r ↦ ?_⟩
    rw [hP (∀ z ∈ ·.outs, r z = 0) fun g m hgm ↦ by rw [hgm.outs], hiff, hiff', and_assoc,
      and_comm (a := ∀ g ∈ second, _)]
  outputs := fun w hw hmem ↦ h'.outputs w hw (h.outputs w hw hmem)
  reads := by
    intro b hb w hw hmem
    obtain ⟨a, ha, hab⟩ := h'.gates b hb
    exact h'.reads b hb w hw (h.reads a ha w (hab.ins w hw) hmem)

theorem ZeroSweep.mem_kept {s : ZeroSweep} :
    a ∈ s.kept ↔ ∃ p, s.gates[p]? = some a ∧ p ∉ s.removed := by
  simp only [kept, List.mem_map, List.mem_filter, Prod.exists, List.mem_zipIdx_iff_getElem?,
    decide_eq_true_eq]
  constructor
  · rintro ⟨b, p, hp, rfl⟩
    exact ⟨p, hp⟩
  · rintro ⟨p, hp⟩
    exact ⟨a, p, hp, rfl⟩

/-- The gates from before a sweep hold exactly where those that it keeps do and the removed ones
drive zero. -/
theorem Sweeping.solutions {s : ZeroSweep} (h : Sweeping outputs start s) :
    ∃ removed, Gate.Thinning Gate.Reformed Gate.HasForm start s.kept removed ∧
      ∀ r, (∀ g ∈ start, g.Holds r) ↔
        (∀ a ∈ s.kept, a.Holds r) ∧ ∀ g ∈ removed, ∀ z ∈ g.outs, r z = 0 := by
  obtain ⟨zeros, hzeros⟩ : ∃ zeros,
      Gate.Thinning (fun g a ↦ a = g) (·.op = .quadratic 0) s.gates s.kept zeros := by
    have hkept : s.kept = s.gates.zipIdx.filterMap
        fun x ↦ if x.2 ∈ s.removed then none else some x.1 := by
      rw [ZeroSweep.kept, ← List.filterMap_eq_map, List.filterMap_filter]
      refine List.filterMap_congr fun x _ ↦ ?_
      by_cases hx : x.2 ∈ s.removed <;> simp [hx]
    rw [hkept]
    nth_rewrite 1 [← List.zipIdx_map_fst 0 s.gates]
    refine ⟨_, .of_filterMap (fun x _ a ha ↦ ?_) fun x hx hnone ↦ ?_⟩
    · split_ifs at ha
      exact (Option.some.inj ha).symm
    · split_ifs at hnone with hremoved
      obtain ⟨a, ha, hop⟩ := h.zero x.2 hremoved
      obtain rfl : x.1 = a := Option.some.inj ((List.mem_zipIdx_iff_getElem?.mp hx).symm.trans ha)
      exact hop
  obtain ⟨removed, hthin, hP⟩ := Gate.Thinning.trans (.of_forall₂ h.gates) hzeros
    (fun g m a hgm hma ↦ hma ▸ hgm.reformed) (fun _ hg ↦ hg)
    fun g m hgm hm ↦ hgm.reformed.hasForm ⟨0, hm⟩
  refine ⟨removed, hthin, fun r ↦ ?_⟩
  rw [h.holds r, hzeros.forall_iff fun g a hag ↦ hag ▸ Iff.rfl,
    hP (∀ z ∈ ·.outs, r z = 0) fun g m hgm ↦ by rw [hgm.outs]]
  refine and_congr_right fun _ ↦ ?_
  rw [and_iff_right nofun]
  refine forall₂_congr fun g hg ↦ ?_
  obtain ⟨hmem, hop⟩ := hzeros.of_mem_removed hg
  obtain ⟨_, _, hza⟩ := zeroed_of_mem h.gates hmem
  exact holds_zero_iff hza.wellFormed hop r

theorem Sweeping.kept {s : ZeroSweep} (h : Sweeping outputs start s) :
    WithoutZeros outputs start s.kept := by
  have hsub : s.kept.Sublist s.gates := by
    have hzip := (List.filter_sublist (p := fun x : Gate × Nat ↦ decide (x.2 ∉ s.removed))
      (l := s.gates.zipIdx)).map Prod.fst
    rwa [List.zipIdx_map_fst] at hzip
  -- A gate that drives a declared output, or a wire that is still read, is not removed.
  have hstays {w : Wire} (hw : w ∈ outputs ∨ ∃ a ∈ s.gates, w ∈ a.ins)
      (hmem : w ∈ start.flatMap Gate.outs) : w ∈ s.kept.flatMap Gate.outs := by
    rw [← flatMap_outs_of_zeroed h.gates] at hmem
    obtain ⟨a, ha, hwa⟩ := List.mem_flatMap.mp hmem
    obtain ⟨p, hp⟩ := List.mem_iff_getElem?.mp ha
    obtain ⟨g, hg, hga⟩ := exists_zeroed h.gates hp
    have hwg : w ∈ g.outs := hga.outs ▸ hwa
    have hremoved : p ∉ s.removed := by
      intro hmem
      rcases hw with hw | ⟨b, hb, hwb⟩
      · exact h.removed p hmem g hg w hwg hw
      · exact h.unread p hmem g hg w hwg b hb hwb
    refine List.mem_flatMap.mpr ⟨a, ?_, hwa⟩
    refine List.mem_map.mpr ⟨(a, p), List.mem_filter.mpr ⟨?_, ?_⟩, rfl⟩
    · exact List.mem_zipIdx_iff_getElem?.mpr hp
    · exact decide_eq_true hremoved
  refine ⟨?_, fun a ha ↦ zeroed_of_mem h.gates (hsub.subset ha), h.solutions,
    fun w hw ↦ hstays (.inl hw), fun a ha w hw ↦ hstays (.inr ⟨a, hsub.subset ha, hw⟩)⟩
  rw [← flatMap_outs_of_zeroed h.gates]
  exact hsub.flatMap _

theorem sweeping_start (hgates : ∀ g ∈ gates, g.WellFormed) :
    Sweeping outputs gates ⟨gates, []⟩ :=
  ⟨List.forall₂_same.mpr fun g hg ↦ .refl (hgates g hg), fun _ ↦ Iff.rfl, nofun, nofun, nofun⟩

/-- Repeated sweeps. -/
theorem withoutZeroGates_spec {rounds : Sweeps} (hgates : ∀ g ∈ gates, g.WellFormed)
    (h : withoutZeroGates outputs gates = .ok (after, rounds)) :
    WithoutZeros outputs gates after := by
  induction hn : gates.length using Nat.strongRecOn generalizing gates after rounds with
  | ind n ih =>
    rw [withoutZeroGates] at h
    obtain ⟨s, hs, h⟩ := bind_eq_ok.mp h
    have hkept := (foldlM_induction (fun _ _ _ ↦ Sweeping.step) (sweeping_start hgates) hs).kept
    split_ifs at h with hlt
    · obtain ⟨⟨rest, t⟩, hrest, h⟩ := bind_eq_ok.mp h
      obtain ⟨rfl, -⟩ := Prod.mk.inj (Except.ok.inj h)
      refine hkept.trans (ih _ (hn ▸ hlt) (fun a ha ↦ ?_) hrest rfl)
      obtain ⟨g, -, hg⟩ := hkept.gates a ha
      exact hg.wellFormed
    · obtain ⟨rfl, -⟩ := Prod.mk.inj (Except.ok.inj h)
      exact .refl hgates

/-! ## Sweeps that fail -/

/-- The states that repeated sweeps go through. -/
inductive ZeroReached (outputs : List Wire) : List Gate → ZeroSweep → Prop
  /-- In a sweep, after the first `n` gates. -/
  | within {gates : List Gate} {s : ZeroSweep} (n : Nat)
    (h : ((List.range gates.length).take n).foldlM (sweepZero outputs gates) ⟨gates, []⟩ = .ok s) :
    ZeroReached outputs gates s
  /-- In a later sweep, if the first one has removed gates. -/
  | later {gates : List Gate} {s t : ZeroSweep}
    (h : (List.range gates.length).foldlM (sweepZero outputs gates) ⟨gates, []⟩ = .ok s)
    (hlt : s.kept.length < gates.length) (ht : ZeroReached outputs s.kept t) :
    ZeroReached outputs gates t

/-- A split or a zero test reads a wire that a quadratic gate with the zero form drives. -/
def ReadsZero (gates : List Gate) (g : Gate) (w : Wire) : Prop :=
  g ∈ gates ∧ (g.op = .split ∨ g.op = .zerop) ∧ w ∈ g.ins ∧
    ∃ d ∈ gates, d.op = .quadratic 0 ∧ d.outs = [w]

theorem sweepZero_eq_error {s : ZeroSweep} {p : Nat} {e : CircuitError}
    (h : Sweeping outputs start s) (hkinds : ∀ g ∈ start, g.op.IsCanonical) (hp : p < start.length)
    (he : sweepZero outputs start s p = .error e) :
    ∃ g w, ReadsZero s.gates g w ∧ e = .violation g (.readsZero w) := by
  unfold sweepZero at he
  split at he
  · rename_i hnone
    exact absurd (h.gates.length_eq ▸ hp) (Nat.not_lt.mpr (List.getElem?_eq_none_iff.mp hnone))
  · rename_i d hd
    have hmem : d ∈ s.gates := List.mem_of_getElem? hd
    split_ifs at he with hzero
    obtain ⟨_, _, hwf⟩ := zeroed_of_mem h.gates hmem
    have hwf := hwf.wellFormed
    cases hwf.shaped with
    | quadratic f ins z note =>
      obtain ⟨hf, -⟩ := (Bool.and_eq_true _ _).mp hzero
      obtain rfl : f = 0 := QuadForm.ext (List.isEmpty_iff.mp hf)
      rcases bind_eq_error.mp he with he | ⟨_, -, he⟩
      · obtain ⟨g, hg, hop, hz, rfl⟩ := zeroWire_eq_error h.gates hkinds he
        exact ⟨g, z, ⟨hg, hop, hz, _, hmem, rfl, rfl⟩, rfl⟩
      · cases he
    | _ => cases hzero

/-- Removing zero gates fails only at a split or a zero test that reads a zero. -/
theorem withoutZeroGates_eq_error {e : CircuitError} (hgates : ∀ g ∈ gates, g.WellFormed)
    (hkinds : ∀ g ∈ gates, g.op.IsCanonical) (h : withoutZeroGates outputs gates = .error e) :
    ∃ s g w, ZeroReached outputs gates s ∧ ReadsZero s.gates g w ∧
      e = .violation g (.readsZero w) := by
  induction hn : gates.length using Nat.strongRecOn generalizing gates with
  | ind n ih =>
    have hsweeping {l : List Nat} {s : ZeroSweep}
        (hs : l.foldlM (sweepZero outputs gates) ⟨gates, []⟩ = .ok s) : Sweeping outputs gates s :=
      foldlM_induction (fun _ _ _ ↦ Sweeping.step) (sweeping_start hgates) hs
    rw [withoutZeroGates] at h
    rcases bind_eq_error.mp h with h | ⟨s, hs, h⟩
    · obtain ⟨k, p, hp, s, hs, he⟩ := foldlM_eq_error h
      obtain ⟨g, w, hreads, he⟩ :=
        sweepZero_eq_error (hsweeping hs) hkinds (List.mem_range.mp hp) he
      exact ⟨s, g, w, .within k hs, hreads, he⟩
    · split_ifs at h with hlt
      · rcases bind_eq_error.mp h with h | ⟨_, -, h⟩
        · have hkept := (hsweeping hs).kept
          obtain ⟨t, g, w, ht, hreads, he⟩ := ih _ (hn ▸ hlt)
            (fun a ha ↦ by
              obtain ⟨g, -, hg⟩ := hkept.gates a ha
              exact hg.wellFormed)
            (fun a ha ↦ by
              obtain ⟨g, hg, hga⟩ := hkept.gates a ha
              exact hga.isCanonical (hkinds g hg)) h rfl
          exact ⟨t, g, w, .later hs hlt ht, hreads, he⟩
        · cases h
      · cases h

/-! ## The whole step -/

section

variable {c d : Circuit} {rounds : Sweeps}

theorem propagateZeros_spec (hc : c.WellFormed) (h : c.propagateZeros = .ok (d, rounds)) :
    d.inputs = c.inputs ∧ d.outputs = c.outputs ∧ WithoutZeros c.outputs c.gates d.gates := by
  obtain ⟨⟨gates, s⟩, hgates, h⟩ := bind_eq_ok.mp h
  obtain ⟨rfl, -⟩ := Prod.mk.inj (Except.ok.inj h)
  exact ⟨rfl, rfl, withoutZeroGates_spec hc.gates hgates⟩

theorem WellFormed.propagateZeros (hc : c.WellFormed) (h : c.propagateZeros = .ok (d, rounds)) :
    d.WellFormed := by
  obtain ⟨hinputs, houtputs, hgates⟩ := propagateZeros_spec hc h
  have hins : d.inputWires = c.inputWires := congrArg (List.map PrimaryInput.wire) hinputs
  refine ⟨fun a ha ↦ ?_, ?_, fun w hw ↦ ?_⟩
  · obtain ⟨g, -, hg⟩ := hgates.gates a ha
    exact hg.wellFormed
  · refine hc.nodup.sublist ?_
    rw [driven, driven, hins]
    exact hgates.outs.append_left _
  · rw [houtputs] at hw
    have hdriven := hc.outputs w hw
    rw [driven, List.mem_append] at hdriven ⊢
    rw [hins]
    exact hdriven.imp_right (hgates.outputs w hw)

theorem Valid.propagateZeros (hc : c.Valid) (h : c.propagateZeros = .ok (d, rounds)) :
    d.Valid := by
  obtain ⟨hinputs, -, hgates⟩ := propagateZeros_spec hc.toWellFormed h
  have hins : d.inputWires = c.inputWires := congrArg (List.map PrimaryInput.wire) hinputs
  refine ⟨hc.toWellFormed.propagateZeros h, fun a ha w hw ↦ ?_⟩
  obtain ⟨g, hg, hga⟩ := hgates.gates a ha
  have hdriven := hc.reads g hg w (hga.ins w hw)
  rw [driven, List.mem_append] at hdriven ⊢
  rw [hins]
  exact hdriven.imp_right (hgates.reads a ha w hw)

theorem Acyclic.propagateZeros (hacyclic : c.Acyclic) (hc : c.WellFormed)
    (h : c.propagateZeros = .ok (d, rounds)) : d.Acyclic := by
  obtain ⟨-, -, hgates⟩ := propagateZeros_spec hc h
  obtain ⟨ρ, hρ⟩ := hacyclic
  refine ⟨ρ, fun a ha v hv w hw ↦ ?_⟩
  obtain ⟨g, hg, hga⟩ := hgates.gates a ha
  exact hρ g hg v (hga.ins v hv) w (hga.outs ▸ hw)

theorem propagateZeros_eq_error {e : CircuitError} (hc : c.WellFormed)
    (hkinds : ∀ g ∈ c.gates, g.op.IsCanonical) (h : c.propagateZeros = .error e) :
    ∃ s g w, ZeroReached c.outputs c.gates s ∧ ReadsZero s.gates g w ∧
      e = .violation g (.readsZero w) := by
  rcases bind_eq_error.mp h with h | ⟨_, -, h⟩
  · exact withoutZeroGates_eq_error hc.gates hkinds h
  · cases h

theorem Relates.propagateZeros {ins outs : List Scalar} (hrel : c.Relates ins outs)
    (hc : c.WellFormed) (h : c.propagateZeros = .ok (d, rounds)) : d.Relates ins outs := by
  obtain ⟨hinputs, houtputs, hgates⟩ := propagateZeros_spec hc h
  obtain ⟨r, hr, rfl, rfl⟩ := hrel
  exact ⟨r, hgates.holds hr, by rw [inputWires, hinputs, inputWires], by rw [houtputs]⟩

theorem Reduced.propagateZeros (hred : c.Reduced) (hc : c.WellFormed)
    (h : c.propagateZeros = .ok (d, rounds)) : d.Reduced := by
  obtain ⟨-, houtputs, hgates⟩ := propagateZeros_spec hc h
  refine ⟨fun a ha ↦ ?_, fun a ha hl w hw ↦ ?_, fun a ha hl w hw b hb hwb ↦ ?_⟩
  · obtain ⟨g, hg, hga⟩ := hgates.gates a ha
    rcases hga.reformed with rfl | ⟨-, f, rfl⟩
    · exact hred.kind a hg
    · exact .inr (.inl ⟨f, rfl⟩)
  · obtain ⟨g, hg, hga⟩ := hgates.gates a ha
    rw [houtputs]
    exact hred.outputs g hg (hga.isLinear ▸ hl) w (hga.outs ▸ hw)
  · obtain ⟨g, hg, hga⟩ := hgates.gates a ha
    obtain ⟨g', hg', hgb⟩ := hgates.gates b hb
    rw [hgb.isLinear]
    exact hred.readers g hg (hga.isLinear ▸ hl) w (hga.outs ▸ hw) g' hg' (hgb.ins w hwb)

end

end Circuit

end Quadratize
