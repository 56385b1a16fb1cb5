import Quadratize.Compile
import Quadratize.Proofs.Circuit.Inputs
import Quadratize.Proofs.Circuit.Numbering
import Quadratize.Proofs.Circuit.Padding
import Quadratize.Proofs.Circuit.Reduced
import Quadratize.Proofs.Circuit.ZeroGates

/-!
# The passes of a compilation

A compilation succeeds exactly if each of its passes does.  What the passes establish and keep is
carried from the circuit to its canonical form: validity, the relation between primary inputs and
declared outputs, and the shape of what synthesis leaves.
-/

namespace Quadratize.Circuit

variable {c d k : Circuit} {opts : Options}

/-! ## Zero gates, if the options say so -/

theorem zeroStep_cases (h : c.zeroStep opts = .ok d) :
    d = c ∨ ∃ rounds, c.propagateZeros = .ok (d, rounds) := by
  unfold zeroStep at h
  split_ifs at h
  · obtain ⟨⟨e, rounds⟩, he, rfl⟩ := map_eq_ok.mp h
    exact .inr ⟨rounds, he⟩
  · exact .inl (Except.ok.inj h).symm

theorem WellFormed.zeroStep (hc : c.WellFormed) (h : c.zeroStep opts = .ok d) : d.WellFormed := by
  rcases zeroStep_cases h with rfl | ⟨rounds, h⟩
  · exact hc
  · exact hc.propagateZeros h

theorem Reduced.zeroStep (hred : c.Reduced) (hc : c.WellFormed) (h : c.zeroStep opts = .ok d) :
    d.Reduced := by
  rcases zeroStep_cases h with rfl | ⟨rounds, h⟩
  · exact hred
  · exact hred.propagateZeros hc h

theorem Relates.zeroStep {ins outs : List Scalar} (hrel : c.Relates ins outs) (hc : c.WellFormed)
    (h : c.zeroStep opts = .ok d) : d.Relates ins outs := by
  rcases zeroStep_cases h with rfl | ⟨rounds, h⟩
  · exact hrel
  · exact hrel.propagateZeros hc h

/-! ## Primary inputs and declared outputs -/

/-- The circuits have the same primary inputs and the same declared outputs. -/
def SameEnds (c d : Circuit) : Prop :=
  d.inputs = c.inputs ∧ d.outputs = c.outputs

theorem SameEnds.inputWires (h : c.SameEnds d) : d.inputWires = c.inputWires :=
  congrArg (List.map PrimaryInput.wire) h.1

theorem SameEnds.trans {e : Circuit} (h : c.SameEnds d) (h' : d.SameEnds e) : c.SameEnds e :=
  ⟨h'.1.trans h.1, h'.2.trans h.2⟩

theorem sameEnds_removeDeadGates (c : Circuit) : c.SameEnds c.removeDeadGates.1 :=
  ⟨rfl, rfl⟩

theorem sameEnds_insertPadding {n : Nat} (hc : c.Valid) (h : c.insertPadding = .ok (d, n)) :
    c.SameEnds d := by
  obtain ⟨-, -, -, hinputs, houtputs, -⟩ := insertPadding_refines hc h
  exact ⟨hinputs, houtputs⟩

theorem sameEnds_synthesize {n : Nat} (hc : c.WellFormed) (h : c.synthesize = .ok (d, n)) :
    c.SameEnds d := by
  obtain ⟨hinputs, houtputs, -⟩ := synthesize_spec hc h
  exact ⟨hinputs, houtputs⟩

theorem sameEnds_zeroStep (hc : c.WellFormed) (h : c.zeroStep opts = .ok d) : c.SameEnds d := by
  rcases zeroStep_cases h with rfl | ⟨rounds, h⟩
  · exact ⟨rfl, rfl⟩
  · obtain ⟨hinputs, houtputs, -⟩ := propagateZeros_spec hc h
    exact ⟨hinputs, houtputs⟩

/-- The declared outputs are distinct, and none of them is a primary input. -/
def OutputsApart (c : Circuit) : Prop :=
  c.outputs.Nodup ∧ ∀ w ∈ c.outputs, w ∉ c.inputWires

theorem OutputsApart.of_sameEnds (h : c.OutputsApart) (hends : c.SameEnds d) : d.OutputsApart := by
  rw [OutputsApart, hends.inputWires, hends.2]
  exact h

theorem OutputsApart.rename {f : Wire → Wire} (h : c.OutputsApart)
    (hf : Set.InjOn f {w | w ∈ c.wires}) : (c.rename f).OutputsApart := by
  constructor
  · exact h.1.map_on fun v hv w hw ↦ hf (mem_wires_of_output hv) (mem_wires_of_output hw)
  · intro w hw hmem
    obtain ⟨v, hv, rfl⟩ := List.mem_map.mp hw
    rw [inputWires_rename] at hmem
    obtain ⟨u, hu, he⟩ := List.mem_map.mp hmem
    exact h.2 v hv (hf (mem_wires_of_input hu) (mem_wires_of_output hv) he ▸ hu)

theorem OutputsApart.normalizeInputs {changed : Bool} (hc : c.OutputsApart)
    (h : c.normalizeInputs = .ok (d, changed)) : d.OutputsApart := by
  rcases normalizeInputs_cases h with ⟨-, rfl⟩ | ⟨-, f, hf, rfl⟩
  · exact hc
  · have hrename := hc.rename hf
    have hperm := (lastToFront_perm (c.rename f).inputs).map PrimaryInput.wire
    exact ⟨hrename.1, fun w hw hmem ↦ hrename.2 w hw (hperm.mem_iff.mp hmem)⟩

/-! ## The passes -/

/-- The circuits between the passes of a compilation. -/
structure Passes (opts : Options) (c k : Circuit) where
  /-- After normalization of the primary inputs. -/
  normal : Circuit
  /-- After removal of dead gates and padding. -/
  padded : Circuit
  /-- After the first numbering. -/
  numbered : Circuit
  /-- After synthesis. -/
  quadratic : Circuit
  /-- After removal of zero gates. -/
  zeroed : Circuit
  /-- After the second removal of dead gates and the second numbering. -/
  dense : Circuit
  validate : c.validate = .ok ()
  normalize : ∃ changed, c.normalizeInputs = .ok (normal, changed)
  pad : ∃ n, normal.removeDeadGates.1.insertPadding = .ok (padded, n)
  number : ∃ ws, padded.renumber opts.wireOrder = .ok (numbered, ws)
  synthesize : ∃ n, numbered.synthesize = .ok (quadratic, n)
  zero : quadratic.zeroStep opts = .ok zeroed
  renumber : ∃ ws, zeroed.removeDeadGates.1.renumber opts.wireOrder = .ok (dense, ws)
  sort : dense.sortGates = .ok k

theorem canonical_eq_ok : c.canonical opts = .ok k ↔ Nonempty (Passes opts c k) := by
  unfold canonical lift
  simp only [bind_eq_ok, mapError_eq_ok]
  constructor
  · rintro ⟨_, hvalid, ⟨c₁, changed⟩, hnormal, ⟨c₂, n⟩, hpad, ⟨c₃, ws⟩, hnumber, ⟨c₄, m⟩, hsyn, c₅,
      hzero, ⟨c₆, vs⟩, hrenumber, hsort⟩
    exact ⟨⟨c₁, c₂, c₃, c₄, c₅, c₆, hvalid, ⟨_, hnormal⟩, ⟨_, hpad⟩, ⟨_, hnumber⟩, ⟨_, hsyn⟩, hzero,
      ⟨_, hrenumber⟩, hsort⟩⟩
  · rintro ⟨p⟩
    obtain ⟨changed, hnormal⟩ := p.normalize
    obtain ⟨n, hpad⟩ := p.pad
    obtain ⟨ws, hnumber⟩ := p.number
    obtain ⟨m, hsyn⟩ := p.synthesize
    obtain ⟨vs, hrenumber⟩ := p.renumber
    exact ⟨(), p.validate, _, hnormal, _, hpad, _, hnumber, _, hsyn, _, p.zero, _, hrenumber,
      p.sort⟩

theorem compile_eq_ok {C : Compiled} :
    c.compile opts = .ok C ↔
      C.circuit.emit = .ok C.system ∧ Nonempty (Passes opts c C.circuit) := by
  unfold compile
  rw [bind_eq_ok, ← canonical_eq_ok]
  constructor
  · rintro ⟨k, hk, h⟩
    obtain ⟨s, hs, h⟩ := bind_eq_ok.mp h
    obtain rfl := Except.ok.inj h
    exact ⟨hs, hk⟩
  · rintro ⟨hsystem, hk⟩
    exact ⟨C.circuit, hk, bind_eq_ok.mpr ⟨C.system, hsystem, rfl⟩⟩

namespace Passes

variable (p : Passes opts c k)
include p

/-! ### Validity -/

theorem valid_source : c.Valid :=
  validate_eq_ok.mp p.validate

theorem valid_normal : p.normal.Valid := by
  obtain ⟨changed, h⟩ := p.normalize
  exact p.valid_source.normalizeInputs h

theorem valid_padded : p.padded.Valid := by
  obtain ⟨n, h⟩ := p.pad
  exact p.valid_normal.removeDeadGates.insertPadding h

theorem valid_numbered : p.numbered.Valid := by
  obtain ⟨ws, h⟩ := p.number
  exact p.valid_padded.toWellFormed.renumber h

/-- What padding establishes is kept by the first numbering. -/
theorem kinds_numbered : (∀ g ∈ p.numbered.gates, g.op ≠ .pack) ∧ p.numbered.LinearInside := by
  obtain ⟨n, hpad⟩ := p.pad
  obtain ⟨hpack, hlinear⟩ := op_insertPadding p.valid_normal.removeDeadGates hpad
  obtain ⟨ws, hnumber⟩ := p.number
  obtain ⟨hnum, hd⟩ := renumber_eq_ok.mp hnumber
  rw [hd]
  refine ⟨fun g' hg' ↦ ?_, hlinear.rename (injOn_renumber hnum)⟩
  obtain ⟨g, hg, rfl⟩ := List.mem_map.mp hg'
  exact Opcode.rename_ne_pack (hpack g hg) _

theorem wellFormed_quadratic : p.quadratic.WellFormed := by
  obtain ⟨n, h⟩ := p.synthesize
  exact p.valid_numbered.toWellFormed.synthesize h p.kinds_numbered.2

theorem wellFormed_zeroed : p.zeroed.WellFormed :=
  p.wellFormed_quadratic.zeroStep p.zero

theorem valid_dense : p.dense.Valid := by
  obtain ⟨ws, h⟩ := p.renumber
  exact p.wellFormed_zeroed.removeDeadGates.renumber h

theorem valid : k.Valid :=
  p.valid_dense.sortGates p.sort

/-! ### Kinds and order of gates -/

theorem reduced_zeroed : p.zeroed.Reduced := by
  obtain ⟨n, h⟩ := p.synthesize
  obtain ⟨hpack, hlinear⟩ := p.kinds_numbered
  exact (Reduced.synthesize p.valid_numbered.toWellFormed h hpack hlinear).zeroStep
    p.wellFormed_quadratic p.zero

theorem inOrder : Gate.InOrder Gate.ins k.inputWires k.gates := by
  rw [inputWires_sortGates p.sort]
  exact (sortGates_spec p.sort).2.2.1

theorem isCanonical : ∀ g ∈ k.gates, g.op.IsCanonical := by
  obtain ⟨ws, h⟩ := p.renumber
  obtain ⟨hnum, hdense⟩ := renumber_eq_ok.mp h
  have hgates := (sortGates_spec p.sort).2.1
  have houtputs := outputs_sortGates_perm p.sort
  have hred : p.dense.Reduced := by
    rw [hdense]
    exact p.reduced_zeroed.removeDeadGates.rename (injOn_renumber hnum)
  have hlive : p.dense.Live := by
    rw [hdense]
    exact (live_of_removeDeadGates p.zeroed).rename _
  exact (hred.of_perm hgates houtputs).isCanonical (hlive.of_perm hgates houtputs) p.inOrder
    p.valid.nodup

/-! ### Names of wires -/

theorem wires_eq : k.wires = p.dense.wires := by
  refine Wire.eq_of_pairwise (Wire.pairwise_ascending _) (Wire.pairwise_ascending _) fun w ↦ ?_
  rw [mem_wires, mem_wires, inputWires_sortGates p.sort, (outputs_sortGates_perm p.sort).mem_iff]
  simp only [(sortGates_spec p.sort).2.1.mem_iff]

theorem ids_wires : k.wires.map Wire.id = List.range k.numVariables := by
  obtain ⟨ws, h⟩ := p.renumber
  rw [numVariables, p.wires_eq]
  exact ids_wires_renumber h

/-- From the first numbering to the second, primary inputs and declared outputs stay. -/
theorem sameEnds_numbered : p.numbered.SameEnds p.zeroed.removeDeadGates.1 := by
  obtain ⟨n, h⟩ := p.synthesize
  exact ((sameEnds_synthesize p.valid_numbered.toWellFormed h).trans
    (sameEnds_zeroStep p.wellFormed_quadratic p.zero)).trans (sameEnds_removeDeadGates _)

theorem sameEnds_normal : p.normal.SameEnds p.padded := by
  obtain ⟨n, h⟩ := p.pad
  exact (sameEnds_removeDeadGates _).trans
    (sameEnds_insertPadding p.valid_normal.removeDeadGates h)

theorem length_ends : p.dense.inputs.length = c.inputs.length ∧
    p.dense.outputs.length = c.outputs.length := by
  obtain ⟨changed, hnormal⟩ := p.normalize
  obtain ⟨ws, hnumber⟩ := p.number
  obtain ⟨vs, hrenumber⟩ := p.renumber
  obtain ⟨-, hnumbered⟩ := renumber_eq_ok.mp hnumber
  obtain ⟨-, hdense⟩ := renumber_eq_ok.mp hrenumber
  have hrename (f : Wire → Wire) (e : Circuit) : (e.rename f).inputs.length = e.inputs.length ∧
      (e.rename f).outputs.length = e.outputs.length :=
    ⟨List.length_map _, List.length_map _⟩
  rw [hdense, (hrename _ _).1, (hrename _ _).2, p.sameEnds_numbered.1, p.sameEnds_numbered.2,
    hnumbered, (hrename _ _).1, (hrename _ _).2, p.sameEnds_normal.1, p.sameEnds_normal.2,
    length_inputs_normalizeInputs hnormal, length_outputs_normalizeInputs hnormal]
  exact ⟨rfl, rfl⟩

theorem length_inputs : k.inputs.length = c.inputs.length := by
  rw [(sortGates_spec p.sort).1, p.length_ends.1]

theorem length_outputs : k.outputs.length = c.outputs.length := by
  rw [(outputs_sortGates_perm p.sort).length_eq, p.length_ends.2]

/-- There is a primary input, because padding needs the constant one. -/
theorem inputs_ne_nil : c.inputs ≠ [] := by
  intro hnil
  obtain ⟨changed, hnormal⟩ := p.normalize
  obtain ⟨n, hpad⟩ := p.pad
  obtain ⟨one, -, hone, -⟩ := insertPadding_refines p.valid_normal.removeDeadGates hpad
  have hlength := length_inputs_normalizeInputs hnormal
  rw [hnil] at hlength
  have hmem : one ∈ p.normal.inputs.map PrimaryInput.wire := List.mem_of_head? hone
  rw [List.length_eq_zero_iff.mp hlength] at hmem
  cases hmem

theorem ids_inputWires : k.inputWires.map Wire.id = List.range c.inputs.length := by
  obtain ⟨ws, h⟩ := p.renumber
  have hids := ids_inputWires_renumber p.wellFormed_zeroed.removeDeadGates h
  obtain ⟨-, hdense⟩ := renumber_eq_ok.mp h
  have hlength : p.zeroed.removeDeadGates.1.inputs.length = c.inputs.length := by
    rw [← p.length_ends.1, hdense]
    exact (List.length_map _).symm
  rw [inputWires_sortGates p.sort, hids, hlength]

/-! ### Meaning -/

/-- The passes keep the relation between primary inputs and declared outputs. -/
theorem relates {ins outs : List Scalar} (hrel : c.Relates ins outs)
    (hone : (c.constantFirst ins).head? = some 1) :
    p.dense.Relates (c.constantFirst ins) outs := by
  obtain ⟨changed, hnormal⟩ := p.normalize
  obtain ⟨n, hpad⟩ := p.pad
  obtain ⟨ws, hnumber⟩ := p.number
  obtain ⟨m, hsyn⟩ := p.synthesize
  obtain ⟨vs, hrenumber⟩ := p.renumber
  have h₁ := (hrel.normalizeInputs p.valid_source hnormal).removeDeadGates
  have h₂ := h₁.insertPadding p.valid_normal.removeDeadGates hone hpad
  have h₃ := h₂.renumber p.valid_padded.toWellFormed hnumber
  have h₄ := h₃.synthesize p.valid_numbered.toWellFormed hsyn
  have h₅ := (h₄.zeroStep p.wellFormed_quadratic p.zero).removeDeadGates
  exact h₅.renumber p.wellFormed_zeroed.removeDeadGates hrenumber

theorem outputsApart (h : c.OutputsApart) : p.zeroed.removeDeadGates.1.OutputsApart := by
  obtain ⟨changed, hnormal⟩ := p.normalize
  obtain ⟨ws, hnumber⟩ := p.number
  obtain ⟨hnum, hnumbered⟩ := renumber_eq_ok.mp hnumber
  have hpadded := (h.normalizeInputs hnormal).of_sameEnds p.sameEnds_normal
  have hrenamed : p.numbered.OutputsApart := by
    rw [hnumbered]
    exact hpadded.rename (injOn_renumber hnum)
  exact hrenamed.of_sameEnds p.sameEnds_numbered

/-- Distinct declared outputs that are no primary inputs keep their order. -/
theorem outputs_eq (h : c.OutputsApart) : k.outputs = p.dense.outputs := by
  obtain ⟨ws, hrenumber⟩ := p.renumber
  obtain ⟨hnodup, hinputs⟩ := p.outputsApart h
  refine outputs_sortGates_of_ascending p.sort ?_
  exact (ascending_outputs_renumber hrenumber hnodup hinputs).imp Nat.le_of_lt

end Passes

/-! ## An example -/

/-- The sum of the input and one is split into two bits and tested for zero; the product of the bits
and the mark of the test are declared. -/
def sample : Circuit where
  inputs := [⟨⟨1, by decide⟩, []⟩, ⟨⟨2, by decide⟩, []⟩]
  gates := [⟨.add, [⟨1, by decide⟩, ⟨2, by decide⟩], [⟨3, by decide⟩], []⟩,
    ⟨.split, [⟨3, by decide⟩], [⟨4, by decide⟩, ⟨5, by decide⟩], []⟩,
    ⟨.zerop, [⟨3, by decide⟩], [⟨6, by decide⟩, ⟨7, by decide⟩], []⟩,
    ⟨.mul, [⟨4, by decide⟩, ⟨5, by decide⟩], [⟨8, by decide⟩], []⟩]
  outputs := [⟨8, by decide⟩, ⟨7, by decide⟩]

theorem exists_compile_sample : ∃ C, sample.compile {} = .ok C := by
  obtain ⟨C, hC, -⟩ :=
    exists_ok_of_any (x := sample.compile {}) (P := fun _ ↦ true) (by decide +kernel)
  exact ⟨C, hC⟩

end Quadratize.Circuit
