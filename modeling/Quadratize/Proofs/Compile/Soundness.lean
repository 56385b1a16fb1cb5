import Quadratize.Proofs.Compile.Canonical

/-!
# Soundness

A witness that satisfies the constraints is the witness that evaluation gives for its primary
inputs, except for the inverses in zero tests of zero: their constraints leave them free.
-/

namespace Quadratize.Circuit

variable {c k : Circuit} {opts : Options} {C : Compiled} {r : Wire → Scalar}

/-! ## Inverses in zero tests -/

/-- The first outputs of zero tests. -/
def inverseWires (k : Circuit) : List Wire :=
  k.gates.filterMap fun g ↦ if g.op = .zerop then g.outs.head? else none

theorem mem_inverseWires {m : Wire} :
    m ∈ k.inverseWires ↔ ∃ g ∈ k.gates, g.op = .zerop ∧ g.outs.head? = some m := by
  simp only [inverseWires, List.mem_filterMap, Option.ite_none_right_eq_some]

/-- Whether the wire is the first output of a test of zero. -/
def isFree (k : Circuit) (r : Wire → Scalar) (m : Wire) : Bool :=
  k.gates.any fun g ↦ g.op = .zerop ∧ g.outs.head? = some m ∧ ∀ x ∈ g.ins, r x = 0

theorem isFree_iff {m : Wire} : k.isFree r m = true ↔
    ∃ g ∈ k.gates, g.op = .zerop ∧ g.outs.head? = some m ∧ ∀ x ∈ g.ins, r x = 0 := by
  simp only [isFree, List.any_eq_true, decide_eq_true_eq]

/-- The assignment with the value of evaluation, which is zero, on the wires that are free. -/
def repair (k : Circuit) (r : Wire → Scalar) (x : Wire) : Scalar :=
  if k.isFree r x then 0 else r x

theorem repair_of_notMem {x : Wire} (hx : x ∉ k.inverseWires) : k.repair r x = r x := by
  refine if_neg fun hfree ↦ hx (mem_inverseWires.mpr ?_)
  obtain ⟨g, hg, hop, hhead, -⟩ := isFree_iff.mp hfree
  exact ⟨g, hg, hop, hhead⟩

namespace Canonical

variable (hk : k.Canonical)
include hk

/-- A wire has one producer. -/
theorem eq_of_mem_outs {g d : Gate} (hg : g ∈ k.gates) (hd : d ∈ k.gates) {x : Wire}
    (hxg : x ∈ g.outs) (hxd : x ∈ d.outs) : g = d :=
  Gate.eq_of_mem_outs (List.nodup_append.mp hk.nodup).2.1 hg hd hxg hxd

theorem notMem_inverseWires_of_input {x : Wire} (hx : x ∈ k.inputWires) : x ∉ k.inverseWires := by
  intro hmem
  obtain ⟨g, hg, -, hhead⟩ := mem_inverseWires.mp hmem
  exact (List.nodup_append.mp hk.nodup).2.2 x hx x
    (List.mem_flatMap.mpr ⟨g, hg, List.mem_of_head? hhead⟩) rfl

/-- An output of a gate is repaired only if the gate is a zero test of zero and the output its
first. -/
theorem repair_of_mem_outs {g : Gate} (hg : g ∈ k.gates) {x : Wire} (hx : x ∈ g.outs)
    (h : ¬(g.op = .zerop ∧ g.outs.head? = some x ∧ ∀ u ∈ g.ins, r u = 0)) :
    k.repair r x = r x := by
  refine if_neg fun hfree ↦ h ?_
  obtain ⟨d, hd, hd'⟩ := isFree_iff.mp hfree
  obtain rfl := hk.eq_of_mem_outs hg hd hx (List.mem_of_head? hd'.2.1)
  exact hd'

theorem holds_repair_zerop {x m y : Wire} {note : List Char}
    (hg : ⟨.zerop, [x], [m, y], note⟩ ∈ k.gates) (hx : k.repair r x = r x)
    (hr : Gate.Constrained r ⟨.zerop, [x], [m, y], note⟩) :
    Gate.Holds (k.repair r) ⟨.zerop, [x], [m, y], note⟩ := by
  have hne : m ≠ y := by
    have hnodup := (List.nodup_flatMap.mp (List.nodup_append.mp hk.nodup).2.1).1 _ hg
    simpa using hnodup
  have hy : k.repair r y = r y :=
    hk.repair_of_mem_outs hg (by simp) fun h ↦ hne (Option.some.inj h.2.1)
  have hzero : if r x = 0 then r y = 0 else r m = (r x)⁻¹ ∧ r y = 1 := hr
  change if k.repair r x = 0 then k.repair r m = 0 ∧ k.repair r y = 0 else
    k.repair r m = (k.repair r x)⁻¹ ∧ k.repair r y = 1
  rw [hx, hy]
  split_ifs at hzero ⊢ with hrx
  · refine ⟨if_pos (isFree_iff.mpr ⟨_, hg, rfl, rfl, ?_⟩), hzero⟩
    exact List.forall_mem_singleton.mpr hrx
  · have hm : k.repair r m = r m :=
      hk.repair_of_mem_outs hg (by simp) fun h ↦ hrx (h.2.2 x (List.mem_singleton_self x))
    exact ⟨hm.trans hzero.1, hzero.2⟩

/-- An assignment that meets the constraints satisfies the circuit after the repair. -/
theorem satisfies_repair (hr : ∀ g ∈ k.gates, g.Constrained r)
    (hsplit : ∀ g ∈ k.gates, g.op = .split → g.outs.length ≤ 252)
    (hreads : ∀ g ∈ k.gates, ∀ x ∈ g.reads, x ∉ k.inverseWires) : k.Satisfies (k.repair r) := by
  intro g hg
  have hread : ∀ x ∈ g.reads, k.repair r x = r x := fun x hx ↦ repair_of_notMem (hreads g hg x hx)
  have hconstrained := hr g hg
  have hlength := hsplit g hg
  -- Only zero tests drive wires that are repaired.
  have hkept : g.op ≠ .zerop → g.Holds r → g.Holds (k.repair r) := fun hop ↦
    (Gate.holds_congr (hk.gates g hg).shaped hread fun x hx ↦
      hk.repair_of_mem_outs hg hx fun h ↦ hop h.1).mpr
  cases (hk.gates g hg).shaped with
  | quadratic f ins z note => exact hkept nofun hconstrained
  | split x b bs note =>
    refine hkept nofun ?_
    obtain ⟨hbit, hsum⟩ := hconstrained
    have hbits := Scalar.eq_bits_of_bitSum (List.forall_mem_map.mpr hbit)
      (by rw [List.length_map]; exact hlength rfl) hsum
    rw [List.length_map] at hbits
    exact hbits
  | zerop x m y note =>
    exact hk.holds_repair_zerop hg (hread x (List.mem_singleton_self x)) hconstrained
  | _ => rcases hk.kinds _ hg with ⟨f, hf⟩ | hf | hf <;> cases hf

/-- A witness that satisfies the constraints agrees with evaluation on the wires that are no
inverses of zero tests. -/
theorem evaluate_of_verify {s : ConstraintSystem} {w : Witness} (hs : k.emit = .ok s)
    (hw : s.verify w = .ok ()) (hsplit : ∀ g ∈ k.gates, g.op = .split → g.outs.length ≤ 252)
    (hreads : ∀ g ∈ k.gates, ∀ x ∈ g.reads, x ∉ k.inverseWires) :
    ∃ u, k.evaluate (k.inputWires.map w.wire) = .ok u ∧ u.size = k.numVariables ∧
      ∀ x ∈ k.wires, x ∉ k.inverseWires → w.get? x.id = u.get? x.id := by
  obtain ⟨hsize, hone, hgates⟩ := (hk.verify_iff hs).mp hw
  have hlength : (k.inputWires.map w.wire).length = k.inputs.length := by
    rw [List.length_map, inputWires, List.length_map]
  have hhead : ∀ a ∈ (k.inputWires.map w.wire).head?, a = 1 := by
    intro a ha
    rw [List.head?_map] at ha
    obtain ⟨x, hx, rfl⟩ := Option.map_eq_some_iff.mp ha
    have hget := hk.get?_wire hsize (mem_wires_of_input (List.mem_of_head? hx))
    rw [hk.id_of_head hx] at hget
    exact hone _ hget
  obtain ⟨u, heval, husize, hsat, hins⟩ := hk.evaluate_spec hlength hhead
  have hrepair := hk.satisfies_repair hgates hsplit hreads
  have hinputs : ∀ x ∈ k.inputWires, k.repair w.wire x = u.wire x := fun x hx ↦
    (repair_of_notMem (hk.notMem_inverseWires_of_input hx)).trans
      (List.map_inj_left.mp hins x hx).symm
  refine ⟨u, heval, husize, fun x hx hmem ↦ ?_⟩
  rw [hk.get?_wire hsize hx, hk.get?_wire husize.ge hx,
    ← hk.eq_of_satisfies hrepair hsat hinputs x hx, repair_of_notMem hmem]

end Canonical

/-! ## Compiled circuits -/

/-- The constraints of a compiled circuit are sound, if splits have at most 252 bits and no gate
reads an inverse of a zero test.  A witness that satisfies them agrees with the witness that
evaluation gives for its primary inputs on every slot that is no inverse of a zero test.  Hence
declared outputs other than these inverses are determined by the primary inputs. -/
theorem verify_sound (h : c.compile opts = .ok C)
    (hsplit : ∀ g ∈ C.circuit.gates, g.op = .split → g.outs.length ≤ 252)
    (hreads : ∀ g ∈ C.circuit.gates, ∀ x ∈ g.reads, x ∉ C.circuit.inverseWires) {w : Witness}
    (hw : C.system.verify w = .ok ()) :
    (∃ v u, (C.circuit.inputWires.map fun x ↦ w.get? x.id) = v.map some ∧
      C.circuit.evaluate v = .ok u ∧ ∀ i < C.system.numVariables,
        (∀ m ∈ C.circuit.inverseWires, m.id ≠ i) → w.get? i = u.get? i) ∧
      ∀ w', C.system.verify w' = .ok () →
        (∀ x ∈ C.circuit.inputWires, w'.get? x.id = w.get? x.id) →
        ∀ o ∈ C.circuit.outputs, o ∉ C.circuit.inverseWires → w'.get? o.id = w.get? o.id := by
  obtain ⟨hsystem, ⟨p⟩⟩ := compile_eq_ok.mp h
  rw [numVariables_emit hsystem]
  have hk := p.canonical
  have hsize := ((hk.verify_iff hsystem).mp hw).1
  obtain ⟨u, heval, -, hu⟩ := hk.evaluate_of_verify hsystem hw hsplit hreads
  refine ⟨⟨_, u, ?_, heval, fun i hi hmem ↦ ?_⟩, fun w' hw' hins o ho hmem ↦ ?_⟩
  · rw [List.map_map]
    exact List.map_congr_left fun x hx ↦ hk.get?_wire hsize (mem_wires_of_input hx)
  · obtain ⟨x, hx, rfl⟩ := hk.exists_wire hi
    exact hu x hx fun hx ↦ hmem x hx rfl
  · obtain ⟨u', heval', -, hu'⟩ := hk.evaluate_of_verify hsystem hw' hsplit hreads
    have hsame : C.circuit.inputWires.map w'.wire = C.circuit.inputWires.map w.wire :=
      List.map_congr_left fun x hx ↦ congrArg (Option.getD · 0) (hins x hx)
    rw [hsame, heval] at heval'
    obtain rfl := Except.ok.inj heval'
    rw [hu' o (mem_wires_of_output ho) hmem, hu o (mem_wires_of_output ho) hmem]

/-- A witness of the example for a sum that is zero, with a forged inverse in slot six. -/
def forged : Witness := ⟨[1, -1, 0, 0, 0, 0, 5, 0, 0]⟩

theorem verify_sound_of_forged : ∃ C, sample.compile {} = .ok C ∧
    C.system.verify forged = .ok () ∧
    (∃ v u, (C.circuit.inputWires.map fun x ↦ forged.get? x.id) = v.map some ∧
      C.circuit.evaluate v = .ok u ∧ ∀ i < C.system.numVariables,
        (∀ m ∈ C.circuit.inverseWires, m.id ≠ i) → forged.get? i = u.get? i) ∧
    ∀ w', C.system.verify w' = .ok () →
      (∀ x ∈ C.circuit.inputWires, w'.get? x.id = forged.get? x.id) →
      ∀ o ∈ C.circuit.outputs, o ∉ C.circuit.inverseWires → w'.get? o.id = forged.get? o.id := by
  obtain ⟨C, hC, hP⟩ := exists_ok_of_any (x := sample.compile {}) (P := fun C ↦ decide
    ((∀ g ∈ C.circuit.gates, g.op = .split → g.outs.length ≤ 252) ∧
      (∀ g ∈ C.circuit.gates, ∀ x ∈ g.reads, x ∉ C.circuit.inverseWires) ∧
      (∀ x ∈ C.circuit.driven, x.id < forged.size) ∧ (∀ a ∈ forged.get? 0, a = 1) ∧
      ∀ q ∈ C.system.constraints, forged.constraint q = .ok 0)) (by decide +kernel)
  obtain ⟨hsplit, hreads, hids, hone, hvanish⟩ := of_decide_eq_true hP
  obtain ⟨hsystem, ⟨p⟩⟩ := compile_eq_ok.mp hC
  have hsize : C.circuit.numVariables ≤ forged.size := by
    by_contra! hlt
    obtain ⟨x, hx, hid⟩ := p.canonical.exists_wire hlt
    exact (hids x (p.canonical.mem_wires.mp hx)).ne hid
  have hw : C.system.verify forged = .ok () :=
    ConstraintSystem.verify_eq_ok.mpr ⟨numVariables_emit hsystem ▸ hsize, hone, hvanish⟩
  exact ⟨C, hC, hw, verify_sound hC hsplit hreads hw⟩

end Quadratize.Circuit
