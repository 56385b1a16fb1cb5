import Quadratize.Proofs.Circuit.Alike
import Quadratize.Proofs.Circuit.Text
import Quadratize.Proofs.Circuit.ZeroGates

/-!
# Legible circuits

Whether a circuit can be read back from its text depends on its gates one by one, so a pass keeps it
if the gates that the pass puts in are legible.  New gates have few wires and fixed notes, and new
forms have the standard shape.
-/

namespace Quadratize

open Text

/-! ## Gates -/

namespace Gate

variable {g a : Gate}

/-- A gate that computes a form reads each wire of the form once, which cannot be too many. -/
theorem length_wires_lt (f : QuadForm) : f.wires.length < countLimit := by
  have hnodup : f.wires.Nodup := Wire.nodup_of_pairwise (Wire.pairwise_ascending _)
  have hle := Circuit.length_le_wireLimit hnodup
  have hlimit : wireLimit < countLimit := by decide
  omega

theorem Legible.withForm {f : QuadForm} {note : List Char} (hg : g.Legible) (hf : f.Standard) :
    Legible { g.withForm f with note := note } where
  ins_lt := length_wires_lt f
  outs_lt := hg.outs_lt
  note := isNote_nil
  standard := fun _ he ↦ Opcode.quadratic.inj he ▸ hf

theorem Legible.rename (hg : g.Legible) {r : Wire → Wire} (hr : Function.Injective r) :
    (g.rename r).Legible where
  ins_lt := (List.length_map r).trans_lt hg.ins_lt
  outs_lt := (List.length_map r).trans_lt hg.outs_lt
  note := by
    have hkind : (g.op.rename r).isQuadratic = g.op.isQuadratic := by
      cases g.op <;> rfl
    have hnote := hg.note
    rw [reread, Declaration.keptNote] at hnote
    rw [reread, Declaration.keptNote, op_rename, hkind]
    exact hnote
  standard := by
    intro f hf
    rw [op_rename] at hf
    cases hop : g.op with
    | quadratic q =>
      rw [hop] at hf
      exact Opcode.quadratic.inj hf ▸ (hg.standard q hop).rename hr
    | _ =>
      rw [hop] at hf
      cases hf

/-- The wires that a gate reads may be replaced by as many others. -/
theorem Legible.withIns {ins : List Wire} (hg : g.Legible) (h : ins.length = g.ins.length) :
    Legible { g with ins := ins } where
  ins_lt := h.trans_lt hg.ins_lt
  outs_lt := hg.outs_lt
  note := hg.note
  standard := hg.standard

/-- The wires that a gate drives may be replaced by as many others. -/
theorem Legible.withOuts {outs : List Wire} (hg : g.Legible) (h : outs.length = g.outs.length) :
    Legible { g with outs := outs } where
  ins_lt := hg.ins_lt
  outs_lt := h.trans_lt hg.outs_lt
  note := hg.note
  standard := hg.standard

/-- A gate without a form is legible if it has few wires and its note fits on its line. -/
theorem legible_of_not_quadratic (hins : g.ins.length < countLimit)
    (houts : g.outs.length < countLimit) (hop : g.op.isQuadratic = false) (hnote : IsNote g.note) :
    g.Legible where
  ins_lt := hins
  outs_lt := houts
  note := by
    rw [reread, Declaration.keptNote, hop, if_neg Bool.false_ne_true]
    exact hnote
  standard := fun f hf ↦ by
    rw [hf] at hop
    cases hop

end Gate

namespace Circuit

variable {c d : Circuit} {g a : Gate} {w v z one : Wire} {next n : Nat} {gates : List Gate}

/-! ## Passes that change no gate -/

theorem Legible.of_gates_subset (hc : c.Legible) (hinputs : d.inputs ⊆ c.inputs)
    (hgates : d.gates ⊆ c.gates) : d.Legible where
  inputs := fun i hi ↦ hc.inputs i (hinputs hi)
  gates := fun g hg ↦ hc.gates g (hgates hg)

theorem Legible.removeDeadGates (hc : c.Legible) : c.removeDeadGates.1.Legible :=
  hc.of_gates_subset (List.Subset.refl _) (gates_removeDeadGates_sublist c).subset

theorem Legible.sortGates (hc : c.Legible) (h : c.sortGates = .ok d) : d.Legible := by
  obtain ⟨hinputs, hgates, -⟩ := sortGates_spec h
  exact hc.of_gates_subset (hinputs ▸ List.Subset.refl _) hgates.subset

/-! ## Renaming -/

theorem Legible.rename (hc : c.Legible) {r : Wire → Wire} (hr : Function.Injective r) :
    (c.rename r).Legible where
  inputs := fun i' hi' ↦ by
    obtain ⟨i, hi, rfl⟩ := List.mem_map.mp hi'
    exact hc.inputs i hi
  gates := fun g' hg' ↦ by
    obtain ⟨g, hg, rfl⟩ := List.mem_map.mp hg'
    exact (hc.gates g hg).rename hr

theorem Legible.rename_injOn (hc : c.Legible) (hgates : ∀ g ∈ c.gates, g.WellFormed)
    {f : Wire → Wire} (hf : Set.InjOn f {w | w ∈ c.wires}) : (c.rename f).Legible := by
  obtain ⟨σ, hσ, heq⟩ := alike_rename hgates hf
  exact heq ▸ hc.rename hσ

theorem Legible.normalizeInputs {changed : Bool} (hc : c.Legible)
    (hgates : ∀ g ∈ c.gates, g.WellFormed) (h : c.normalizeInputs = .ok (d, changed)) :
    d.Legible := by
  rcases normalizeInputs_cases h with ⟨-, rfl⟩ | ⟨-, f, hf, rfl⟩
  · exact hc
  · exact (hc.rename_injOn hgates hf).of_gates_subset (lastToFront_perm _).subset
      (List.Subset.refl _)

theorem Legible.renumber {order : WireOrder} {ws : List Wire} (hc : c.Legible)
    (hgates : ∀ g ∈ c.gates, g.WellFormed) (h : c.renumber order = .ok (d, ws)) : d.Legible := by
  obtain ⟨hnum, rfl⟩ := renumber_eq_ok.mp h
  exact hc.rename_injOn hgates (injOn_renumber hnum)

/-! ## Padding -/

theorem one_lt_countLimit : 1 < countLimit := by
  decide

theorem two_lt_countLimit : 2 < countLimit := by
  decide

theorem length_cons_tail_of_head? {l : List Wire} (h : l.head? = some w) :
    (v :: l.tail).length = l.length := by
  cases l with
  | nil => cases h
  | cons x l => rfl

theorem legible_copyGate {source target : Wire} {note : String} (hnote : IsNote note.toList) :
    (copyGate one source target note).Legible :=
  Gate.legible_of_not_quadratic two_lt_countLimit one_lt_countLimit rfl hnote

theorem internalRead?_cases {inputs : List Wire} (h : internalRead? inputs g = some w) :
    (g.op = .split ∨ g.op = .zerop) ∧ g.ins.head? = some w := by
  unfold internalRead? at h
  split at h
  · rename_i hop
    exact ⟨.inl hop, (Option.filter_eq_some_iff.mp h).1⟩
  · rename_i hop
    exact ⟨.inr hop, (Option.filter_eq_some_iff.mp h).1⟩
  · cases h

/-- The gate in front of a split or a zero test is named after it. -/
theorem isNote_readerNote {op : Opcode} (h : op = .split ∨ op = .zerop) :
    IsNote ("QuadGate before " ++ op.name).toList := by
  rcases h with rfl | rfl
  · exact ⟨.of_any_eq_false rfl, rfl⟩
  · exact ⟨.of_any_eq_false rfl, rfl⟩

theorem legible_padReaders {inputs : List Wire} {p : Padded} (hgates : ∀ g ∈ gates, g.Legible)
    (h : padReaders one inputs next gates = .ok p) :
    (∀ g ∈ p.gates, g.Legible) ∧ ∀ g ∈ p.added, g.Legible := by
  induction gates generalizing next p with
  | nil =>
    obtain rfl := Except.ok.inj h
    exact ⟨nofun, nofun⟩
  | cons g rest ih =>
    obtain ⟨hg, hrest⟩ := List.forall_mem_cons.mp hgates
    unfold padReaders at h
    split at h
    · obtain ⟨p, hp, h⟩ := bind_eq_ok.mp h
      obtain rfl := Except.ok.inj h
      obtain ⟨hp, hadded⟩ := ih hrest hp
      exact ⟨List.forall_mem_cons.mpr ⟨hg, hp⟩, hadded⟩
    · rename_i w hread
      obtain ⟨⟨v, m⟩, -, h⟩ := bind_eq_ok.mp h
      obtain ⟨p, hp, h⟩ := bind_eq_ok.mp h
      obtain rfl := Except.ok.inj h
      obtain ⟨hp, hadded⟩ := ih hrest hp
      obtain ⟨hop, hhead⟩ := internalRead?_cases hread
      have hreader := hg.withIns (length_cons_tail_of_head? (v := v) hhead)
      exact ⟨List.forall_mem_cons.mpr ⟨hreader, hp⟩,
        List.forall_mem_cons.mpr ⟨legible_copyGate (isNote_readerNote hop), hadded⟩⟩

/-- A gate that takes part in packing. -/
theorem legible_packGate {op : Opcode} {ins : List Wire} (hop : op.isQuadratic = false)
    (hins : ins.length ≤ 2) : Gate.Legible ⟨op, ins, [z], packNote⟩ :=
  Gate.legible_of_not_quadratic (hins.trans_lt two_lt_countLimit) one_lt_countLimit hop
    ⟨.of_any_eq_false rfl, rfl⟩

theorem legible_packChain {output acc : Wire} {bits : List Wire} {last : Nat}
    (h : packChain output next acc bits = .ok (gates, last)) : ∀ g ∈ gates, g.Legible := by
  induction bits generalizing next acc gates with
  | nil =>
    obtain ⟨rfl, -⟩ := Prod.mk.inj (Except.ok.inj h)
    exact nofun
  | cons bit lower ih =>
    rw [packChain_cons] at h
    obtain ⟨⟨doubled, m⟩, -, h⟩ := bind_eq_ok.mp h
    obtain ⟨⟨sum, n⟩, -, h⟩ := bind_eq_ok.mp h
    obtain ⟨⟨rest, k⟩, hrest, h⟩ := bind_eq_ok.mp h
    obtain ⟨rfl, rfl⟩ := Prod.mk.inj (Except.ok.inj h)
    have hdouble : (doubleGate acc doubled).Legible := legible_packGate rfl (Nat.le_succ 1)
    have hbit : (bitGate bit doubled sum).Legible := legible_packGate rfl le_rfl
    exact List.forall_mem_cons.mpr ⟨hdouble, List.forall_mem_cons.mpr ⟨hbit, ih hrest⟩⟩

theorem legible_packGates {output : Wire} {bits : List Wire} {last : Nat}
    (h : packGates output next bits = .ok (gates, last)) : ∀ g ∈ gates, g.Legible := by
  match bits with
  | [] =>
    obtain ⟨rfl, -⟩ := Prod.mk.inj (Except.ok.inj h)
    exact nofun
  | [bit] =>
    obtain ⟨rfl, -⟩ := Prod.mk.inj (Except.ok.inj h)
    exact List.forall_mem_singleton.mpr (legible_packGate rfl (Nat.le_succ 1))
  | high :: bit :: lower => exact legible_packChain h

theorem legible_expandPacks {p : Padded} (hgates : ∀ g ∈ gates, g.Legible)
    (h : expandPacks next gates = .ok p) :
    (∀ g ∈ p.gates, g.Legible) ∧ ∀ g ∈ p.added, g.Legible := by
  induction gates generalizing next p with
  | nil =>
    obtain rfl := Except.ok.inj h
    exact ⟨nofun, nofun⟩
  | cons g rest ih =>
    obtain ⟨hg, hrest⟩ := List.forall_mem_cons.mp hgates
    unfold expandPacks at h
    split at h
    · obtain ⟨p, hp, h⟩ := bind_eq_ok.mp h
      obtain rfl := Except.ok.inj h
      obtain ⟨hp, hadded⟩ := ih hrest hp
      exact ⟨List.forall_mem_cons.mpr ⟨hg, hp⟩, hadded⟩
    · obtain ⟨⟨chain, m⟩, hchain, h⟩ := bind_eq_ok.mp h
      obtain ⟨p, hp, h⟩ := bind_eq_ok.mp h
      obtain rfl := Except.ok.inj h
      obtain ⟨hp, hadded⟩ := ih hrest hp
      exact ⟨hp, List.forall_mem_append.mpr ⟨legible_packGates hchain, hadded⟩⟩

theorem head?_of_linearOutput? {outputs : List Wire} (h : linearOutput? outputs g = some z) :
    g.outs.head? = some z := by
  unfold linearOutput? at h
  split_ifs at h
  exact (Option.filter_eq_some_iff.mp h).1

theorem legible_padOutputs {outputs : List Wire} {p : Padded} (hgates : ∀ g ∈ gates, g.Legible)
    (h : padOutputs one outputs next gates = .ok p) :
    (∀ g ∈ p.gates, g.Legible) ∧ ∀ g ∈ p.added, g.Legible := by
  induction gates generalizing next p with
  | nil =>
    obtain rfl := Except.ok.inj h
    exact ⟨nofun, nofun⟩
  | cons g rest ih =>
    obtain ⟨hg, hrest⟩ := List.forall_mem_cons.mp hgates
    unfold padOutputs at h
    split at h
    · obtain ⟨p, hp, h⟩ := bind_eq_ok.mp h
      obtain rfl := Except.ok.inj h
      obtain ⟨hp, hadded⟩ := ih hrest hp
      exact ⟨List.forall_mem_cons.mpr ⟨hg, hp⟩, hadded⟩
    · rename_i z hdrive
      obtain ⟨⟨v, m⟩, -, h⟩ := bind_eq_ok.mp h
      obtain ⟨p, hp, h⟩ := bind_eq_ok.mp h
      obtain rfl := Except.ok.inj h
      obtain ⟨hp, hadded⟩ := ih hrest hp
      have hhead := head?_of_linearOutput? hdrive
      have hdriver := hg.withOuts (length_cons_tail_of_head? (v := v) hhead)
      have hnote : IsNote "QuadGate before output".toList := ⟨.of_any_eq_false rfl, rfl⟩
      exact ⟨List.forall_mem_cons.mpr ⟨hdriver, hp⟩,
        List.forall_mem_cons.mpr ⟨legible_copyGate hnote, hadded⟩⟩

theorem Legible.insertPadding (hc : c.Legible) (h : c.insertPadding = .ok (d, n)) : d.Legible := by
  unfold Circuit.insertPadding at h
  split at h
  · cases h
  · obtain ⟨readers, hreaders, h⟩ := bind_eq_ok.mp h
    obtain ⟨packs, hpacks, h⟩ := bind_eq_ok.mp h
    obtain ⟨outs, houts, h⟩ := bind_eq_ok.mp h
    obtain ⟨rfl, -⟩ := Prod.mk.inj (Except.ok.inj h)
    obtain ⟨hr, hr'⟩ := legible_padReaders hc.gates hreaders
    obtain ⟨hp, hp'⟩ := legible_expandPacks hr hpacks
    have hinner := List.forall_mem_append.mpr ⟨List.forall_mem_append.mpr ⟨hp, hr'⟩, hp'⟩
    exact ⟨hc.inputs, List.forall_mem_append.mpr (legible_padOutputs hinner houts)⟩

/-! ## Synthesis -/

theorem legible_synthesizeXor (hg : g.Legible) (h : synthesizeXor g = .ok a) : a.Legible := by
  unfold synthesizeXor at h
  split at h
  · rename_i x y hop hins
    cases h
    exact ⟨hg.ins_lt, hg.outs_lt, isNote_nil,
      fun f hf ↦ Opcode.quadratic.inj hf ▸ QuadForm.standard_xor x y⟩
  · cases h
  · cases h
    exact hg

theorem Legible.synthesize (hlegible : c.Legible) (hc : c.WellFormed)
    (h : c.synthesize = .ok (d, n)) : d.Legible := by
  obtain ⟨hinputs, -, gates, hxor, hsyn⟩ := synthesize_spec hc h
  have hgates : ∀ g ∈ gates, g.Legible := by
    intro a ha
    obtain ⟨g, hg, hga⟩ := exists_of_forall₂ (mapM_eq_ok.mp hxor) ha
    exact legible_synthesizeXor (hlegible.gates g hg) hga
  refine ⟨hinputs ▸ hlegible.inputs, fun a ha ↦ ?_⟩
  rcases hsyn.cases a ha with ⟨g, hg, f, hform, rfl⟩ | ⟨ha, -⟩
  · exact (hgates g hg).withForm hform.standard
  · exact hgates a ha

/-! ## Zero gates -/

theorem legible_readZero (hg : g.Legible) (h : readZero w g = .ok a) : a.Legible := by
  unfold readZero at h
  split at h
  · rename_i f _
    obtain rfl := Except.ok.inj h
    exact hg.withForm (QuadForm.standard_simplify (f.substituteZero w))
  · cases h

theorem legible_zeroWire {start after : List Gate} (hgates : ∀ g ∈ gates, g.Legible)
    (h : zeroWire start w gates = .ok after) : ∀ a ∈ after, a.Legible := by
  intro a ha
  obtain ⟨⟨old, g⟩, hmem, hga⟩ := exists_of_forall₂ (mapM_eq_ok.mp h) ha
  have hg := hgates g (List.of_mem_zip hmem).2
  dsimp only at hga
  split_ifs at hga with hread
  · exact legible_readZero hg hga
  · exact Except.ok.inj hga ▸ hg

theorem legible_sweepZero {outputs : List Wire} {start : List Gate} {s t : ZeroSweep} {p : Nat}
    (hgates : ∀ g ∈ s.gates, g.Legible) (h : sweepZero outputs start s p = .ok t) :
    ∀ g ∈ t.gates, g.Legible := by
  unfold sweepZero at h
  split at h
  · cases h
  · split_ifs at h
    · split at h
      · exact Except.ok.inj h ▸ hgates
      · obtain ⟨after, hafter, h⟩ := bind_eq_ok.mp h
        obtain rfl := Except.ok.inj h
        exact legible_zeroWire hgates hafter
    · exact Except.ok.inj h ▸ hgates

theorem ZeroSweep.kept_subset (s : ZeroSweep) : s.kept ⊆ s.gates := by
  intro g hg
  obtain ⟨⟨_, p⟩, hp, rfl⟩ := List.mem_map.mp hg
  exact List.mem_of_getElem? (List.mem_zipIdx_iff_getElem?.mp (List.mem_filter.mp hp).1)

theorem legible_withoutZeroGates {outputs : List Wire} {after : List Gate} {rounds : Sweeps}
    (hgates : ∀ g ∈ gates, g.Legible) (h : withoutZeroGates outputs gates = .ok (after, rounds)) :
    ∀ g ∈ after, g.Legible := by
  induction hn : gates.length using Nat.strongRecOn generalizing gates after rounds with
  | ind n ih =>
    rw [withoutZeroGates] at h
    obtain ⟨s, hs, h⟩ := bind_eq_ok.mp h
    have hswept : ∀ g ∈ s.gates, g.Legible :=
      foldlM_induction (P := fun s : ZeroSweep ↦ ∀ g ∈ s.gates, g.Legible)
        (fun _ _ _ ↦ legible_sweepZero) hgates hs
    split_ifs at h with hlt
    · obtain ⟨⟨rest, t⟩, hrest, h⟩ := bind_eq_ok.mp h
      obtain ⟨rfl, -⟩ := Prod.mk.inj (Except.ok.inj h)
      exact ih _ (hn ▸ hlt) (fun g hg ↦ hswept g (s.kept_subset hg)) hrest rfl
    · obtain ⟨rfl, -⟩ := Prod.mk.inj (Except.ok.inj h)
      exact hgates

theorem Legible.propagateZeros {rounds : Sweeps} (hc : c.Legible)
    (h : c.propagateZeros = .ok (d, rounds)) : d.Legible := by
  obtain ⟨⟨gates, s⟩, hgates, h⟩ := bind_eq_ok.mp h
  obtain ⟨rfl, -⟩ := Prod.mk.inj (Except.ok.inj h)
  exact ⟨hc.inputs, legible_withoutZeroGates hc.gates hgates⟩

end Circuit

end Quadratize
