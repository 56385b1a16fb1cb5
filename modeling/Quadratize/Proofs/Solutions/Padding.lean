import Quadratize.Proofs.Circuit.Padding

/-!
# Solutions under padding

Where the first primary input is one, the solutions of the padded circuit are the solutions of the
circuit with values for the new wires, and there is exactly one way to choose these values.  The
new wires are numbered above all others, each is driven by one gate, and the number of gates that
are added is accounted for.
-/

namespace Quadratize.Circuit

open Gate

variable {one w : Wire} {inputs outputs : List Wire} {gates muls : List Gate} {next : Nat}
  {p : Padded} {g : Gate}

/-! ## What splits and zero tests read -/

/-- If the gate is a split or a zero test then it reads one of the inputs or the output of one of
the products. -/
def ReadsCopy (inputs : List Wire) (muls : List Gate) (g : Gate) : Prop :=
  g.op = .split ∨ g.op = .zerop →
    ∃ w, g.ins = [w] ∧ (w ∈ inputs ∨ ∃ a ∈ muls, a.op = .mul ∧ w ∈ a.outs)

theorem ReadsCopy.mono {muls' : List Gate} (h : ReadsCopy inputs muls g)
    (hmuls : ∀ a ∈ muls, a.op = .mul → a ∈ muls') : ReadsCopy inputs muls' g := by
  intro hop
  obtain ⟨w, hw, hinput | ⟨a, ha, hmul, hwa⟩⟩ := h hop
  · exact ⟨w, hw, .inl hinput⟩
  · exact ⟨w, hw, .inr ⟨a, hmuls a ha hmul, hmul, hwa⟩⟩

theorem readsCopy_of_internalRead? (hg : g.Shaped) (h : internalRead? inputs g = none) :
    ReadsCopy inputs muls g := by
  have hinput {x : Wire} (hx : (some x).filter (· ∉ inputs) = none) : x ∈ inputs := by
    simpa using hx
  intro hop
  cases hg with
  | split x b bs note => exact ⟨x, rfl, .inl (hinput h)⟩
  | zerop x m y note => exact ⟨x, rfl, .inl (hinput h)⟩
  | _ => rcases hop with hop | hop <;> cases hop

/-- Every gate keeps its kind, and splits and zero tests read inputs or the products that are put in
front of them. -/
theorem padReaders_gates (hgates : ∀ g ∈ gates, g.Shaped)
    (h : padReaders one inputs next gates = .ok p) :
    List.Forall₂ (fun g a ↦ a.op = g.op ∧ ReadsCopy inputs p.added a) gates p.gates := by
  induction gates generalizing next p with
  | nil =>
    obtain rfl := Except.ok.inj h
    exact .nil
  | cons g rest ih =>
    obtain ⟨hg, hrest⟩ := List.forall_mem_cons.mp hgates
    unfold padReaders at h
    split at h
    · rename_i hnone
      obtain ⟨p, hp, h⟩ := bind_eq_ok.mp h
      obtain rfl := Except.ok.inj h
      exact .cons ⟨rfl, readsCopy_of_internalRead? hg hnone⟩ (ih hrest hp)
    · rename_i w hw
      obtain ⟨⟨v, n⟩, -, h⟩ := bind_eq_ok.mp h
      obtain ⟨p, hp, h⟩ := bind_eq_ok.mp h
      obtain rfl := Except.ok.inj h
      obtain ⟨-, hins⟩ := internalRead?_eq_some hg hw
      refine .cons ⟨rfl, fun _ ↦ ⟨v, ?_, .inr ⟨_, List.mem_cons_self, rfl, ?_⟩⟩⟩ ?_
      · rw [hins, List.tail_cons]
      · exact List.mem_singleton_self v
      · refine (ih hrest hp).imp fun g a ⟨hop, hreads⟩ ↦ ⟨hop, hreads.mono fun b hb _ ↦ ?_⟩
        exact List.mem_cons_of_mem _ hb

/-! ## Which gates stay -/

/-- All gates but the packs stay as they are. -/
theorem expandPacks_gates (hgates : ∀ g ∈ gates, g.Shaped) (h : expandPacks next gates = .ok p) :
    p.gates = gates.filter (·.op ≠ .pack) := by
  induction gates generalizing next p with
  | nil =>
    obtain rfl := Except.ok.inj h
    rfl
  | cons g rest ih =>
    obtain ⟨hg, hrest⟩ := List.forall_mem_cons.mp hgates
    unfold expandPacks at h
    split at h
    · rename_i hnone
      obtain ⟨p, hp, h⟩ := bind_eq_ok.mp h
      obtain rfl := Except.ok.inj h
      have hop : g.op ≠ .pack := by
        cases hg with
        | pack b bs z note => cases hnone
        | _ => nofun
      rw [List.filter_cons_of_pos (by simpa using hop), ← ih hrest hp]
    · rename_i z hz
      obtain ⟨⟨chain, n⟩, -, h⟩ := bind_eq_ok.mp h
      obtain ⟨p, hp, h⟩ := bind_eq_ok.mp h
      obtain rfl := Except.ok.inj h
      have hop : g.op = .pack := by
        rw [(packOutput?_eq_some hg hz).1]
        rfl
      rw [List.filter_cons_of_neg (by simp [hop]), ih hrest hp]

/-- All gates but linear ones stay as they are, and linear ones keep their kind. -/
theorem padOutputs_gates (hgates : ∀ g ∈ gates, g.Shaped)
    (h : padOutputs one outputs next gates = .ok p) :
    List.Forall₂ (fun g a ↦ a = g ∨ a.op.isLinear = true ∧ g.op.isLinear = true) gates p.gates ∧
      ∀ a ∈ p.added, a.op = .mul := by
  induction gates generalizing next p with
  | nil =>
    obtain rfl := Except.ok.inj h
    exact ⟨.nil, nofun⟩
  | cons g rest ih =>
    obtain ⟨hg, hrest⟩ := List.forall_mem_cons.mp hgates
    unfold padOutputs at h
    split at h
    · obtain ⟨p, hp, h⟩ := bind_eq_ok.mp h
      obtain rfl := Except.ok.inj h
      obtain ⟨hstay, hadded⟩ := ih hrest hp
      exact ⟨.cons (.inl rfl) hstay, hadded⟩
    · rename_i z hz
      obtain ⟨⟨v, n⟩, -, h⟩ := bind_eq_ok.mp h
      obtain ⟨p, hp, h⟩ := bind_eq_ok.mp h
      obtain rfl := Except.ok.inj h
      obtain ⟨hlinear, -⟩ := linearOutput?_eq_some hg hz
      obtain ⟨hstay, hadded⟩ := ih hrest hp
      exact ⟨.cons (.inr ⟨hlinear, hlinear⟩) hstay, List.forall_mem_cons.mpr ⟨rfl, hadded⟩⟩

/-! ## Steps of padding -/

section

variable {c d : Circuit} {n : Nat} {readers packs outs : Padded}

namespace PaddingSteps

variable (h : PaddingSteps c one readers packs outs)
include h

theorem readers_gates (hc : c.Valid) :
    List.Forall₂ (fun g a ↦ a.op = g.op ∧ ReadsCopy c.inputWires readers.added a) c.gates
      readers.gates :=
  padReaders_gates (fun g hg ↦ (hc.gates g hg).shaped) h.padsReaders

theorem packs_gates (hc : c.Valid) : packs.gates = readers.gates.filter (·.op ≠ .pack) :=
  expandPacks_gates (fun g hg ↦ (h.wellFormed_readers hc g (List.mem_append_left _ hg)).1.shaped)
    h.expandsPacks

theorem outs_gates (hc : c.Valid) :
    List.Forall₂ (fun g a ↦ a = g ∨ a.op.isLinear = true ∧ g.op.isLinear = true)
      (packs.gates ++ readers.added ++ packs.added) outs.gates ∧ ∀ a ∈ outs.added, a.op = .mul :=
  padOutputs_gates (fun g hg ↦ ((h.refines_inner hc).wellFormed g hg).shaped) h.padsOutputs

/-- In the padded circuit splits and zero tests read primary inputs or outputs of products. -/
theorem readsCopy (hc : c.Valid) :
    ∀ g ∈ outs.gates ++ outs.added, ReadsCopy c.inputWires (outs.gates ++ outs.added) g := by
  obtain ⟨hstay, hadded⟩ := h.outs_gates hc
  obtain ⟨hgates, -⟩ := List.forall_mem_append.mp (h.wellFormed_readers hc)
  obtain ⟨-, hlinear⟩ := op_expandPacks (fun g hg ↦ (hgates g hg).1) h.expandsPacks
  intro g hg hop
  have hgmul : g.op ≠ .mul := by
    rcases hop with hop | hop <;> rw [hop] <;> nofun
  have hglinear : g.op.isLinear ≠ true := by
    rcases hop with hop | hop <;> rw [hop] <;> nofun
  -- The gate is one of the readers, and its product stays as it is.
  have hmem : g ∈ outs.gates :=
    (List.mem_append.mp hg).resolve_right fun hg ↦ hgmul (hadded g hg)
  obtain ⟨b, hb, rfl | ⟨hl, -⟩⟩ := exists_of_forall₂ hstay hmem
  · have hreader : g ∈ readers.gates := by
      rcases List.mem_append.mp hb with hb | hb
      · rcases List.mem_append.mp hb with hb | hb
        · rw [h.packs_gates hc] at hb
          exact List.mem_of_mem_filter hb
        · exact absurd (op_padReaders h.padsReaders g hb) hgmul
      · exact absurd (hlinear g hb) hglinear
    obtain ⟨a, -, -, hreads⟩ := exists_of_forall₂ (h.readers_gates hc) hreader
    refine hreads.mono (fun m hm hmul ↦ List.mem_append_left _ ?_) hop
    have hinner : m ∈ packs.gates ++ readers.added ++ packs.added :=
      List.mem_append_left _ (List.mem_append_right _ hm)
    obtain ⟨m', hm', rfl | ⟨-, hl⟩⟩ := exists_of_forall₂ hstay.flip hinner
    · exact hm'
    · rw [hmul] at hl
      cases hl
  · exact absurd hl hglinear

/-- The gates that are added take the places of the packs and come on top of the others. -/
theorem count (hc : c.Valid) :
    readers.added.length + packs.added.length + outs.added.length + c.gates.length =
      (outs.gates ++ outs.added).length + c.gates.countP (·.op = .pack) := by
  have hreaders := (h.readers_gates hc).length_eq
  have houts := (h.outs_gates hc).1.length_eq
  have hops : c.gates.map Gate.op = readers.gates.map Gate.op := by
    rw [← List.forall₂_eq_eq_eq, List.forall₂_map_left_iff, List.forall₂_map_right_iff]
    exact (h.readers_gates hc).imp fun _ _ hga ↦ hga.1.symm
  have hpacks : c.gates.countP (·.op = .pack) = readers.gates.countP (·.op = .pack) := by
    have hcount := congrArg (List.countP (· = Opcode.pack)) hops
    rwa [List.countP_map, List.countP_map] at hcount
  have hsplit : readers.gates.length =
      readers.gates.countP (·.op = .pack) + packs.gates.length := by
    rw [h.packs_gates hc, List.countP_eq_length_filter,
      List.length_eq_length_filter_add (fun g : Gate ↦ decide (g.op = .pack))]
    simp only [decide_not]
  simp only [List.length_append] at houts ⊢
  omega

end PaddingSteps

/-! ## Solutions -/

/-- A wire that a gate drives is driven by that gate only. -/
theorem countP_outs_eq_one (hnodup : (gates.flatMap Gate.outs).Nodup) (hg : g ∈ gates)
    (hw : w ∈ g.outs) : gates.countP (w ∈ ·.outs) = 1 := by
  induction gates with
  | nil => cases hg
  | cons a rest ih =>
    rw [List.flatMap_cons, List.nodup_append] at hnodup
    obtain ⟨-, hrest, hdisjoint⟩ := hnodup
    by_cases hwa : w ∈ a.outs
    · have hnone : rest.countP (w ∈ ·.outs) = 0 := by
        refine List.countP_eq_zero.mpr fun b hb hwb ↦ ?_
        exact hdisjoint w hwa w (List.mem_flatMap.mpr ⟨b, hb, of_decide_eq_true hwb⟩) rfl
      rw [List.countP_cons, hnone, if_pos (decide_eq_true hwa)]
    · rw [List.countP_cons, if_neg (by simpa using hwa), Nat.add_zero]
      refine ih hrest ((List.mem_cons.mp hg).resolve_left ?_)
      rintro rfl
      exact hwa hw

/-- A new wire of the padded circuit is numbered above the wires from before, and one gate drives
it. -/
theorem new_wire_insertPadding (hc : c.Valid) (h : c.insertPadding = .ok (d, n))
    (hw : w ∈ d.wires) (hnew : w ∉ c.wires) :
    c.firstFresh ≤ w.id ∧ ∃ g ∈ d.gates, w ∈ g.outs := by
  obtain ⟨one, last, -, -, -, href⟩ := insertPadding_refines hc h
  have hdriven := (hc.insertPadding h).mem_wires.mp hw
  rw [mem_driven, inputWires_insertPadding hc h] at hdriven
  have hgate := hdriven.resolve_left fun hinput ↦ hnew (mem_wires_of_input hinput)
  refine ⟨?_, hgate⟩
  obtain ⟨fresh, hperm, -, hfresh⟩ := href.outs
  obtain hold | hmem := List.mem_append.mp (hperm.mem_iff.mp (List.mem_flatMap.mpr hgate))
  · obtain ⟨g, hg, hwg⟩ := List.mem_flatMap.mp hold
    exact absurd (mem_wires_of_gate hg (.inr hwg)) hnew
  · exact (hfresh w hmem).1

/-- A solution extends to the new wires in exactly one way. -/
theorem existsUnique_insertPadding (hc : c.Valid) (h : c.insertPadding = .ok (d, n))
    (hone : c.one? = some one) {r : Wire → Scalar} (hr : c.Satisfies r) (hrone : r one = 1) :
    ∃! q, d.Satisfies q ∧ ∀ w, ¬(w ∈ d.wires ∧ w ∉ c.wires) → q w = r w := by
  obtain ⟨one', last, hone', -, -, href⟩ := insertPadding_refines hc h
  obtain rfl : one = one' := Option.some.inj (hone.symm.trans hone')
  have hmem : one ∈ c.wires := mem_wires_of_input (List.mem_of_head? hone)
  obtain ⟨q, hq, hd⟩ := href.extend r hrone hr
  -- Off the new wires the extension is put back to what it was.
  have hsame : ∀ w ∈ d.wires, (if w ∈ d.wires ∧ w ∉ c.wires then q w else r w) = q w := by
    intro w hw
    by_cases hold : w ∈ c.wires
    · rw [if_neg fun hnew ↦ hnew.2 hold]
      exact (hq w (id_lt_firstFresh hold)).symm
    · rw [if_pos ⟨hw, hold⟩]
  have hsat : d.Satisfies fun w ↦ if w ∈ d.wires ∧ w ∉ c.wires then q w else r w := by
    intro g hg
    have hwf := href.wellFormed g hg
    refine (holds_congr hwf.shaped (fun w hw ↦ ?_) fun w hw ↦ ?_).mpr (hd g hg)
    · exact hsame w (mem_wires_of_gate hg (.inl (hwf.mem_ins hw)))
    · exact hsame w (mem_wires_of_gate hg (.inr hw))
  refine ⟨_, ⟨hsat, fun w hw ↦ if_neg hw⟩, fun t ⟨ht, hagree⟩ ↦ ?_⟩
  have hold {w : Wire} (hw : w ∈ c.wires) :
      t w = if w ∈ d.wires ∧ w ∉ c.wires then q w else r w := by
    rw [if_neg fun hnew ↦ hnew.2 hw]
    exact hagree w fun hnew ↦ hnew.2 hw
  funext w
  by_cases hnew : w ∈ d.wires ∧ w ∉ c.wires
  · obtain ⟨-, g, hg, hwg⟩ := new_wire_insertPadding hc h hnew.1 hnew.2
    have htone : t one = 1 := (hagree one fun hnew ↦ hnew.2 hmem).trans hrone
    refine href.reflects.unique t _ htone ((hold hmem).symm.trans htone) (fun g hg w hw ↦ ?_) ht
      hsat g hg w hwg
    exact hold (mem_wires_of_gate hg (List.mem_append.mp hw))
  · rw [if_neg hnew]
    exact hagree w hnew

/-- After padding there is no pack, splits and zero tests read primary inputs or outputs of
products, and no linear gate drives a declared output.  Where the first primary input is one, a
solution extends to the new wires in exactly one way, and every solution afterwards is one from
before.  New wires are numbered from a hundred million on and above the wires from before, and
exactly one gate drives each.  The number of added gates is that by which there are more gates
afterwards, and the number of packs on top. -/
theorem solutions_of_insertPadding (hc : c.validate = .ok ()) (hone : c.one? = some one)
    (h : c.insertPadding = .ok (d, n)) :
    d.inputs = c.inputs ∧ d.outputs = c.outputs ∧
      (∀ g ∈ d.gates, g.op ≠ .pack) ∧
      (∀ g ∈ d.gates, g.op = .split ∨ g.op = .zerop →
        ∃ w, g.ins = [w] ∧ (w ∈ d.inputWires ∨ ∃ a ∈ d.gates, a.op = .mul ∧ w ∈ a.outs)) ∧
      (∀ g ∈ d.gates, g.op.isLinear = true → ∀ w ∈ g.outs, w ∉ d.outputs) ∧
      (∀ r, c.Satisfies r → r one = 1 →
        ∃! q, d.Satisfies q ∧ ∀ w, ¬(w ∈ d.wires ∧ w ∉ c.wires) → q w = r w) ∧
      (∀ q, d.Satisfies q → q one = 1 → c.Satisfies q) ∧
      (∀ w ∈ d.wires, w ∉ c.wires →
        100000000 ≤ w.id ∧ (∀ v ∈ c.wires, v.id < w.id) ∧ w.id < 4294967295 ∧
          d.gates.countP (w ∈ ·.outs) = 1) ∧
      n + c.gates.length = d.gates.length + c.gates.countP (·.op = .pack) := by
  have hvalid := validate_eq_ok.mp hc
  obtain ⟨one', last, hone', hinputs, houtputs, href⟩ := insertPadding_refines hvalid h
  obtain rfl : one = one' := Option.some.inj (hone.symm.trans hone')
  obtain ⟨hpack, hlinear⟩ := op_insertPadding hvalid h
  refine ⟨hinputs, houtputs, hpack, fun g hg hop ↦ ?_, hlinear,
    fun r hr hrone ↦ existsUnique_insertPadding hvalid h hone hr hrone,
    fun q hq hqone ↦ href.reflects.holds q hqone hq, fun w hw hnew ↦ ?_, ?_⟩
  · obtain ⟨one', readers, packs, outs, hsteps, rfl, -⟩ := insertPadding_steps h
    exact hsteps.readsCopy hvalid g hg hop
  · obtain ⟨hfirst, g, hg, hwg⟩ := new_wire_insertPadding hvalid h hw hnew
    refine ⟨(Nat.le_max_left freshBase _).trans hfirst, fun v hv ↦ ?_, w.isLt, ?_⟩
    · exact (id_lt_firstFresh hv).trans_le hfirst
    · have hnodup := (hvalid.insertPadding h).nodup
      exact countP_outs_eq_one (List.nodup_append.mp hnodup).2.1 hg hwg
  · obtain ⟨one', readers, packs, outs, hsteps, rfl, rfl⟩ := insertPadding_steps h
    exact hsteps.count hvalid

end

/-- A split that reads a linear gate which drives a declared output, and a pack of three bits that
drives one too. -/
def declaredPack : Circuit where
  inputs := [⟨1, []⟩, ⟨2, []⟩, ⟨3, []⟩]
  gates := [⟨.add, [2, 3], [4], []⟩, ⟨.split, [4], [5, 6], []⟩, ⟨.pack, [5, 6, 2], [7], []⟩,
    ⟨.zerop, [2], [8, 9], []⟩]
  outputs := [7, 4, 8]

theorem solutions_of_insertPadding_declaredPack :
    declaredPack.validate = .ok () ∧ declaredPack.one? = some 1 ∧
    ∃ d, declaredPack.insertPadding = .ok (d, 7) ∧ d.gates.length = 10 ∧
      (∀ r, declaredPack.Satisfies r → r 1 = 1 →
        ∃! q, d.Satisfies q ∧ ∀ w, ¬(w ∈ d.wires ∧ w ∉ declaredPack.wires) → q w = r w) ∧
      ∀ q, d.Satisfies q → q 1 = 1 → declaredPack.Satisfies q := by
  have hvalid : declaredPack.validate = .ok () := by decide
  obtain ⟨⟨d, n⟩, hd, hP⟩ := exists_ok_of_any (x := declaredPack.insertPadding)
    (P := fun x ↦ decide (x.2 = 7)) (by decide +kernel)
  obtain rfl : n = 7 := of_decide_eq_true hP
  obtain ⟨-, -, -, -, -, hextend, hrestrict, -, hcount⟩ := solutions_of_insertPadding hvalid rfl hd
  have hlength : 7 + 4 = d.gates.length + 1 := hcount
  exact ⟨hvalid, rfl, d, hd, by omega, hextend, hrestrict⟩

end Quadratize.Circuit
