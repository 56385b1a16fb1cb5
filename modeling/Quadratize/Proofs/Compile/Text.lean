import Quadratize.Proofs.Circuit.Legible
import Quadratize.Proofs.Compile.Passes

/-!
# The text of a canonical circuit

The passes of a compilation keep a circuit legible, so the canonical circuit of a text can be
written and read again.  The notes of quadratic gates are not written, because their formulas stand
in the same place; nothing else is lost.
-/

namespace Quadratize

variable {g : Gate} {c d k : Circuit} {opts : Options} {C : Compiled}

/-! ## Gates without the notes of forms -/

namespace Gate

theorem WellFormed.reread (hg : g.WellFormed) : g.reread.WellFormed where
  shaped := by
    have hshape : g.hasShape = true := shaped_iff.mp hg.shaped
    exact shaped_iff.mpr hshape
  form := hg.form

/-- Only a quadratic gate loses its note. -/
theorem reread_of_not_quadratic (hg : g.op.isQuadratic = false) : g.reread = g := by
  unfold reread Declaration.keptNote
  rw [if_neg (Bool.not_eq_true _ ▸ hg)]

theorem gateNote_reread (g : Gate) : Circuit.gateNote g.reread = Circuit.gateNote g := by
  obtain ⟨op, ins, outs, note⟩ := g
  cases op <;> rfl

theorem renderGate_reread (g : Gate) : Circuit.renderGate g.reread = Circuit.renderGate g := by
  unfold Circuit.renderGate
  rw [gateNote_reread]
  rfl

/-- The note of a gate with the wires of its kind does not show in its constraints. -/
theorem constraints_reread (hg : g.Shaped) : g.reread.constraints = g.constraints := by
  cases hg <;> rfl

/-- It does not show in its values. -/
theorem outputValues_reread (hg : g.Shaped) (vs : Values) :
    g.reread.outputValues vs = g.outputValues vs := by
  cases hg <;> rfl

end Gate

namespace Circuit

theorem flatMap_reread {α : Type} {f : Gate → List α} (hf : ∀ g, f g.reread = f g)
    (gates : List Gate) : (gates.map Gate.reread).flatMap f = gates.flatMap f := by
  rw [List.flatMap_map]
  exact congrArg (gates.flatMap ·) (funext hf)

theorem driven_reread (c : Circuit) : c.reread.driven = c.driven :=
  congrArg (c.inputWires ++ ·) (flatMap_reread (fun _ ↦ rfl) c.gates)

theorem wires_reread (c : Circuit) : c.reread.wires = c.wires :=
  congrArg (fun ws ↦ Wire.ascending (c.inputWires ++ c.outputs ++ ws))
    (flatMap_reread (fun _ ↦ rfl) c.gates)

theorem Valid.reread (hc : c.Valid) : c.reread.Valid := by
  refine ⟨⟨fun a ha ↦ ?_, ?_, fun w hw ↦ ?_⟩, fun a ha w hw ↦ ?_⟩
  · obtain ⟨g, hg, rfl⟩ := List.mem_map.mp ha
    exact (hc.gates g hg).reread
  · rw [driven_reread]
    exact hc.nodup
  · rw [driven_reread]
    exact hc.outputs w hw
  · obtain ⟨g, hg, rfl⟩ := List.mem_map.mp ha
    rw [driven_reread]
    exact hc.reads g hg w hw

theorem numVariables_reread (c : Circuit) : c.reread.numVariables = c.numVariables :=
  congrArg List.length (wires_reread c)

theorem render_reread (c : Circuit) : c.reread.render = c.render := by
  have hgates : c.reread.gates.flatMap renderGate = c.gates.flatMap renderGate :=
    flatMap_reread Gate.renderGate_reread c.gates
  have hinputs : c.reread.inputs = c.inputs := rfl
  have houtputs : c.reread.outputs = c.outputs := rfl
  unfold render
  rw [numVariables_reread, hinputs, hgates, houtputs]

theorem emit_reread (hc : ∀ g ∈ c.gates, g.Shaped) : c.reread.emit = c.emit := by
  have hgates : c.reread.gates.mapM Gate.constraints = c.gates.mapM Gate.constraints := by
    rw [reread, List.mapM_map]
    exact mapM_congr fun g hg ↦ Gate.constraints_reread (hc g hg)
  rw [emit, emit, numVariables_reread, hgates]

theorem evaluateGates_reread {gates : List Gate} (hgates : ∀ g ∈ gates, g.Shaped) (vs : Values) :
    evaluateGates vs (gates.map Gate.reread) = evaluateGates vs gates := by
  induction gates generalizing vs with
  | nil => rfl
  | cons g rest ih =>
    obtain ⟨hg, hrest⟩ := List.forall_mem_cons.mp hgates
    rw [List.map_cons, evaluateGates, evaluateGates, Gate.outputValues_reread hg]
    exact bind_congr fun new ↦ ih hrest _

theorem evaluate_reread (hc : ∀ g ∈ c.gates, g.Shaped) (values : List Scalar) :
    c.reread.evaluate values = c.evaluate values := by
  have hgates (vs : Values) : evaluateGates vs c.reread.gates = evaluateGates vs c.gates :=
    evaluateGates_reread hc vs
  rw [evaluate, evaluate, maxWire?, wires_reread]
  simp only [hgates]
  rfl

/-! ## The passes -/

theorem Legible.zeroStep (hc : c.Legible) (h : c.zeroStep opts = .ok d) : d.Legible := by
  rcases zeroStep_cases h with rfl | ⟨rounds, h⟩
  · exact hc
  · exact hc.propagateZeros h

/-- A legible circuit has a legible canonical form. -/
theorem Passes.legible (p : Passes opts c k) (hc : c.Legible) : k.Legible := by
  obtain ⟨changed, hnormal⟩ := p.normalize
  obtain ⟨n, hpad⟩ := p.pad
  obtain ⟨ws, hnumber⟩ := p.number
  obtain ⟨m, hsyn⟩ := p.synthesize
  obtain ⟨vs, hrenumber⟩ := p.renumber
  have hpadded : p.padded.Legible :=
    (hc.normalizeInputs p.valid_source.gates hnormal).removeDeadGates.insertPadding hpad
  have hnumbered : p.numbered.Legible := hpadded.renumber p.valid_padded.gates hnumber
  have hzeroed : p.zeroed.Legible :=
    (hnumbered.synthesize p.valid_numbered.toWellFormed hsyn).zeroStep p.zero
  have hdense : p.dense.Legible :=
    hzeroed.removeDeadGates.renumber p.wellFormed_zeroed.removeDeadGates.gates hrenumber
  exact hdense.sortGates p.sort

/-! ## Reading a canonical circuit -/

/-- The canonical circuit of a text, written and read again, has the same primary inputs with their
notes, the same declared outputs, and the same gates up to the notes of quadratic gates.  It has the
same text, the same constraints and the same witnesses. -/
theorem read_render_of_compile {text : List Char} (hread : read text = .ok c)
    (h : c.compile opts = .ok C) :
    ∃ c', read C.circuit.render = .ok c' ∧ c'.inputs = C.circuit.inputs ∧
      c'.outputs = C.circuit.outputs ∧
      List.Forall₂ (fun g' g ↦ g'.op = g.op ∧ g'.ins = g.ins ∧ g'.outs = g.outs ∧
        (g.op = .split ∨ g.op = .zerop → g'.note = g.note)) c'.gates C.circuit.gates ∧
      c'.render = C.circuit.render ∧ c'.emit = .ok C.system ∧
      ∀ values, c'.evaluate values = C.circuit.evaluate values := by
  obtain ⟨hsystem, ⟨p⟩⟩ := compile_eq_ok.mp h
  have hlegible : C.circuit.Legible := p.legible (legible_of_read hread).1
  have hshaped : ∀ g ∈ C.circuit.gates, g.Shaped := fun g hg ↦ (p.valid.gates g hg).shaped
  refine ⟨C.circuit.reread, read_render hlegible p.valid.reread, rfl, rfl, ?_,
    render_reread _, (emit_reread hshaped).trans hsystem, evaluate_reread hshaped⟩
  refine List.forall₂_map_left_iff.mpr (List.forall₂_same.mpr fun g _ ↦ ⟨rfl, rfl, rfl, ?_⟩)
  rintro (hop | hop)
  · rw [Gate.reread_of_not_quadratic (hop ▸ rfl)]
  · rw [Gate.reread_of_not_quadratic (hop ▸ rfl)]

/-- A text with notes on a split, a zero test and gates that synthesis replaces. -/
def mixedText : List Char :=
  ("input 0 # one-input\n" ++ "input 1 # x\n" ++ "add in 2 <0 1> out 1 <2> # x + 1\n" ++
    "split in 1 <2> out 2 <3 4> # bits\n" ++ "zerop in 1 <2> out 2 <5 6> # test\n" ++
    "xor in 2 <3 4> out 1 <7> # parity\n" ++ "pack in 2 <4 3> out 1 <8>\n" ++
    "mul in 2 <7 8> out 1 <9>\n" ++ "output 9\n" ++ "output 6\n").toList

theorem read_render_mixedText : ∃ c C, read mixedText = .ok c ∧ c.compile {} = .ok C ∧
    ∃ c', read C.circuit.render = .ok c' ∧ c'.inputs = C.circuit.inputs ∧
      c'.outputs = C.circuit.outputs ∧
      List.Forall₂ (fun g' g ↦ g'.op = g.op ∧ g'.ins = g.ins ∧ g'.outs = g.outs ∧
        (g.op = .split ∨ g.op = .zerop → g'.note = g.note)) c'.gates C.circuit.gates ∧
      c'.render = C.circuit.render ∧ c'.emit = .ok C.system ∧
      ∀ values, c'.evaluate values = C.circuit.evaluate values := by
  obtain ⟨c, hread, hcompiles⟩ := exists_ok_of_any (x := read mixedText)
    (P := fun c ↦ (c.compile {}).toOption.any fun _ ↦ true) (by decide +kernel)
  obtain ⟨C, hcompile, -⟩ := exists_ok_of_any hcompiles
  exact ⟨c, C, hread, hcompile, read_render_of_compile hread hcompile⟩

end Circuit

end Quadratize
