import Quadratize.Proofs.Circuit.Emit
import Quadratize.Proofs.Circuit.Evaluate
import Quadratize.Proofs.Form.Partial

/-!
# Evaluation of circuits as they are

A circuit that is valid but not compiled is evaluated gate by gate, too.  Evaluation gets to the end
exactly if every gate has a kind that can be evaluated and reads nothing that comes later: the wires
with values are then those of the primary inputs and the outputs of the gates so far.
-/

namespace Quadratize

namespace Values

variable {vs new : Values} {w : Wire}

theorem isSome_lookup : (vs.lookup w).isSome = true ↔ w ∈ vs.map Prod.fst := by
  constructor
  · intro h
    by_contra hw
    rw [Wire.lookup_eq_none hw] at h
    cases h
  · intro h
    obtain ⟨p, hp, rfl⟩ := List.mem_map.mp h
    rw [Option.isSome_iff_ne_none]
    intro hnone
    simpa using List.lookup_eq_none_iff.mp hnone p hp

theorem exists_read_ok : (∃ a, vs.read w = .ok a) ↔ w ∈ vs.map Prod.fst := by
  rw [← isSome_lookup]
  refine ⟨fun ⟨a, ha⟩ ↦ ?_, fun h ↦ ⟨_, read_of_isSome h⟩⟩
  rw [read] at ha
  cases hw : vs.lookup w with
  | some b => rfl
  | none =>
    rw [hw] at ha
    cases ha

theorem map_fst_assign :
    (vs.assign new).map Prod.fst = (new.map Prod.fst).reverse ++ vs.map Prod.fst := by
  rw [assign_eq, List.map_append, List.map_reverse]

/-- A number that belongs to no wire with a value has zero. -/
theorem get?_toWitness_of_notMem {n i : ℕ} (hi : i < n) (h : ∀ x ∈ vs.map Prod.fst, x.id ≠ i) :
    (vs.toWitness n).get? i = some 0 := by
  have hnone : vs.find? (fun p ↦ p.1.id == i) = none := by
    refine List.find?_eq_none.mpr fun p hp ↦ ?_
    simpa using h p.1 (List.mem_map_of_mem hp)
  rw [toWitness, Witness.get?, List.getElem?_map, List.getElem?_range hi, Option.map_some, hnone]
  rfl

end Values

namespace Gate

variable {vs : Values} {g : Gate}

theorem exists_packValue_ok {i : ℕ} {bits : List Wire} :
    (∃ a, packValue vs i bits = .ok a) ↔ ∀ w ∈ bits, ∃ a, vs.read w = .ok a := by
  induction bits generalizing i with
  | nil => exact ⟨fun _ ↦ nofun, fun _ ↦ ⟨0, rfl⟩⟩
  | cons w bits ih => rw [packValue, exists_bind₂_ok, ih, List.forall_mem_cons]

/-- A gate can be evaluated exactly if its kind can be and all that it reads has a value. -/
theorem exists_outputValues_ok (hg : g.Shaped) : (∃ new, g.outputValues vs = .ok new) ↔
    g.Evaluable ∧ ∀ w ∈ g.reads, ∃ a, vs.read w = .ok a := by
  refine ⟨fun h ↦ ?_, fun ⟨hop, hread⟩ ↦ ?_⟩
  · cases hg with
    | quadratic f ins z note =>
      obtain ⟨a, ha, -⟩ := exists_bind_ok.mp h
      exact ⟨⟨rfl, nofun⟩, QuadForm.exists_tryEval_ok.mp ⟨a, ha⟩⟩
    | split x b bs note =>
      obtain ⟨a, ha, -⟩ := exists_bind_ok.mp h
      exact ⟨⟨rfl, nofun⟩, List.forall_mem_singleton.mpr ⟨a, ha⟩⟩
    | pack b bs z note =>
      obtain ⟨a, ha, -⟩ := exists_bind_ok.mp h
      exact ⟨⟨rfl, nofun⟩, exists_packValue_ok.mp ⟨a, ha⟩⟩
    | zerop x m y note =>
      obtain ⟨a, ha, -⟩ := exists_bind_ok.mp h
      exact ⟨⟨rfl, nofun⟩, List.forall_mem_singleton.mpr ⟨a, ha⟩⟩
    | xor x y z note =>
      obtain ⟨hx, hy⟩ := exists_bind₂_ok.mp h
      exact ⟨⟨rfl, nofun⟩, List.forall_mem_cons.mpr ⟨hx, List.forall_mem_singleton.mpr hy⟩⟩
    | _ =>
      obtain ⟨new, hnew⟩ := h
      cases hnew
  · obtain ⟨new, hnew, -⟩ := outputValues_spec hg hop fun w hw ↦
      Values.read_of_isSome (Values.isSome_lookup.mpr (Values.exists_read_ok.mp (hread w hw)))
    exact ⟨new, hnew⟩

theorem map_fst_outputValues {new : Values} (hg : g.Shaped) (h : g.outputValues vs = .ok new) :
    new.map Prod.fst = g.outs := by
  obtain ⟨hop, hread⟩ := (exists_outputValues_ok hg).mp ⟨new, h⟩
  obtain ⟨new', hnew, hkeys, -⟩ := outputValues_spec hg hop fun w hw ↦
    Values.read_of_isSome (Values.isSome_lookup.mpr (Values.exists_read_ok.mp (hread w hw)))
  rwa [Except.ok.inj (h.symm.trans hnew)]

/-- In order of evaluation, every wire that a gate reads is ready or driven by a gate before it. -/
theorem inOrder_iff {reads : Gate → List Wire} {ready : List Wire} {gates : List Gate} :
    InOrder reads ready gates ↔ ∀ before g after, gates = before ++ g :: after →
      ∀ w ∈ reads g, w ∈ ready ∨ ∃ d ∈ before, w ∈ d.outs := by
  constructor
  · rintro h before g after rfl w hw
    simpa using h.mem_ready (by simp) hw
  · intro h
    induction gates generalizing ready with
    | nil => trivial
    | cons g rest ih =>
      refine ⟨fun w hw ↦ (h [] g rest rfl w hw).resolve_right (by simp), ih ?_⟩
      rintro before a after rfl w hw
      have hread := h (g :: before) a after rfl w hw
      simpa [or_assoc] using hread

end Gate

namespace Circuit

variable {c : Circuit} {v : List Scalar}

theorem evaluateGates_cons {vs : Values} {g : Gate} {rest : List Gate} :
    evaluateGates vs (g :: rest) =
      g.outputValues vs >>= fun new ↦ evaluateGates (vs.assign new) rest := rfl

/-- The wires with values are those that had values at the start and the outputs of the gates. -/
theorem map_fst_evaluateGates {gates : List Gate} {vs vs' : Values}
    (hgates : ∀ g ∈ gates, g.Shaped) (h : evaluateGates vs gates = .ok vs') :
    vs'.map Prod.fst = (gates.flatMap Gate.outs).reverse ++ vs.map Prod.fst := by
  induction gates generalizing vs with
  | nil => rw [Except.ok.inj h, List.flatMap_nil, List.reverse_nil, List.nil_append]
  | cons g rest ih =>
    obtain ⟨hg, hrest⟩ := List.forall_mem_cons.mp hgates
    obtain ⟨new, hnew, hrun⟩ := bind_eq_ok.mp h
    rw [ih hrest hrun, Values.map_fst_assign, Gate.map_fst_outputValues hg hnew, List.flatMap_cons,
      List.reverse_append, List.append_assoc]

/-- Evaluation gets to the end exactly if every gate finds values for what it reads, where the wires
that are ready are those with values. -/
theorem exists_evaluateGates_ok {ready : List Wire} {gates : List Gate} {vs : Values}
    (hgates : ∀ g ∈ gates, g.Shaped) (hready : ∀ w, w ∈ ready ↔ w ∈ vs.map Prod.fst) :
    (∃ vs', evaluateGates vs gates = .ok vs') ↔
      (∀ g ∈ gates, g.Evaluable) ∧ Gate.InOrder Gate.reads ready gates := by
  induction gates generalizing ready vs with
  | nil => exact ⟨fun _ ↦ ⟨nofun, trivial⟩, fun _ ↦ ⟨vs, rfl⟩⟩
  | cons g rest ih =>
    obtain ⟨hg, hrest⟩ := List.forall_mem_cons.mp hgates
    have hstep : (∃ new, g.outputValues vs = .ok new) ↔ g.Evaluable ∧ ∀ w ∈ g.reads, w ∈ ready := by
      simp only [Gate.exists_outputValues_ok hg, Values.exists_read_ok, hready]
    -- Values for the outputs of the gate keep the invariant, as the outputs become ready with it.
    have hnext {new : Values} (hnew : g.outputValues vs = .ok new) (w : Wire) :
        w ∈ ready ++ g.outs ↔ w ∈ (vs.assign new).map Prod.fst := by
      rw [Values.map_fst_assign, Gate.map_fst_outputValues hg hnew, List.mem_append,
        List.mem_append, List.mem_reverse, hready, or_comm]
    rw [evaluateGates_cons, exists_bind_ok, List.forall_mem_cons]
    constructor
    · rintro ⟨new, hnew, hrun⟩
      obtain ⟨hop, hreads⟩ := hstep.mp ⟨new, hnew⟩
      obtain ⟨hops, horder⟩ := (ih hrest (hnext hnew)).mp hrun
      exact ⟨⟨hop, hops⟩, hreads, horder⟩
    · rintro ⟨⟨hop, hops⟩, hreads, horder⟩
      obtain ⟨new, hnew⟩ := hstep.mpr ⟨hop, hreads⟩
      exact ⟨new, hnew, (ih hrest (hnext hnew)).mpr ⟨hops, horder⟩⟩

theorem mem_start (hlength : v.length = c.inputs.length) (w : Wire) :
    w ∈ c.inputWires ↔ w ∈ (Values.assign [] (c.inputWires.zip v)).map Prod.fst := by
  rw [Values.map_fst_assign, (map_zip_inputWires hlength).1, List.map_nil, List.append_nil,
    List.mem_reverse]

theorem evaluate_eq_ok {w : Witness} : c.evaluate v = .ok w ↔ checkInputs c v = .ok () ∧
    ∃ vs, evaluateGates (Values.assign [] (c.inputWires.zip v)) c.gates = .ok vs ∧
      vs.toWitness c.idBound = w := by
  rw [evaluate, bind_eq_ok]
  constructor
  · rintro ⟨_, hinputs, h⟩
    obtain ⟨vs, hvs, hw⟩ := bind_eq_ok.mp h
    exact ⟨hinputs, vs, hvs, Except.ok.inj hw⟩
  · rintro ⟨hinputs, vs, hvs, rfl⟩
    exact ⟨(), hinputs, bind_eq_ok.mpr ⟨vs, hvs, rfl⟩⟩

theorem exists_evaluate_ok (hgates : ∀ g ∈ c.gates, g.Shaped) :
    (∃ w, c.evaluate v = .ok w) ↔ (v.length = c.inputs.length ∧ ∀ a ∈ v.head?, a = 1) ∧
      (∀ g ∈ c.gates, g.Evaluable) ∧ Gate.InOrder Gate.reads c.inputWires c.gates := by
  simp only [evaluate_eq_ok, exists_and_left, checkInputs_eq_ok]
  refine and_congr_right fun ⟨hlength, _⟩ ↦ ?_
  rw [← exists_evaluateGates_ok hgates (mem_start hlength)]
  exact ⟨fun ⟨_, vs, hvs, _⟩ ↦ ⟨vs, hvs⟩, fun ⟨vs, hvs⟩ ↦ ⟨_, vs, hvs, rfl⟩⟩

/-- The witness of a valid circuit holds the values of the primary inputs, satisfies every gate, and
is zero where no wire is assigned. -/
theorem Valid.evaluate_spec {w : Witness} (h : c.Valid) (hw : c.evaluate v = .ok w) :
    w.size = c.idBound ∧ c.inputWires.map (fun x ↦ w.get? x.id) = v.map some ∧
      c.Satisfies w.wire ∧ ∀ i < w.size, (∀ x ∈ c.driven, x.id ≠ i) → w.get? i = some 0 := by
  have hshaped : ∀ g ∈ c.gates, g.Shaped := fun g hg ↦ (h.gates g hg).shaped
  obtain ⟨⟨hlength, hhead⟩, hops, horder⟩ := (exists_evaluate_ok hshaped).mp ⟨w, hw⟩
  obtain ⟨w', r, hw', hsize, hsat, hins, hget⟩ := Circuit.evaluate_spec
    (fun g hg ↦ ⟨hshaped g hg, hops g hg⟩) h.nodup horder hlength hhead
  obtain rfl := Except.ok.inj (hw'.symm.trans hw)
  have hwire : ∀ x ∈ c.wires, r x = w'.wire x := fun x hx ↦
    (congrArg (Option.getD · 0) (hget x hx)).symm
  refine ⟨hsize, ?_, (satisfies_congr h.gates hwire).mp hsat, fun i hi hfree ↦ ?_⟩
  · rw [← hins, List.map_map]
    exact List.map_congr_left fun x hx ↦ hget x (mem_wires_of_input hx)
  · obtain ⟨-, vs, hvs, rfl⟩ := evaluate_eq_ok.mp hw
    rw [Values.size_toWitness] at hi
    refine Values.get?_toWitness_of_notMem hi fun x hx ↦ hfree x ?_
    rw [map_fst_evaluateGates hshaped hvs, List.mem_append, ← mem_start hlength,
      List.mem_reverse] at hx
    exact List.mem_append.mpr hx.symm

/-- A valid circuit is evaluated exactly on lists with a value for each primary input that start
with one, and only if it has no linear and no `mul` gates and each gate reads primary inputs and
outputs of gates before it.  The witness then has a slot for each number up to the largest, holds
the given values, satisfies every gate, and is zero where no wire is assigned. -/
theorem evaluate_validated (hvalid : c.validate = .ok ()) (v : List Scalar) :
    ((∃ w, c.evaluate v = .ok w) ↔
        (v.length = c.inputs.length ∧ ∀ a ∈ v.head?, a = 1) ∧ (∀ g ∈ c.gates, g.Evaluable) ∧
        ∀ before g after, c.gates = before ++ g :: after →
          ∀ x ∈ g.reads, x ∈ c.inputWires ∨ ∃ d ∈ before, x ∈ d.outs) ∧
      ∀ w, c.evaluate v = .ok w → w.size = c.maxWire?.elim 0 (·.id + 1) ∧
        c.inputWires.map (fun x ↦ w.get? x.id) = v.map some ∧ c.Satisfies w.wire ∧
        ∀ i < w.size, (∀ x ∈ c.driven, x.id ≠ i) → w.get? i = some 0 := by
  have h : c.Valid := validate_eq_ok.mp hvalid
  refine ⟨?_, fun w hw ↦ h.evaluate_spec hw⟩
  rw [exists_evaluate_ok fun g hg ↦ (h.gates g hg).shaped, Gate.inOrder_iff]

/-- Numbers with gaps, and a quadratic gate whose inputs name a later wire that its form does not
mention. -/
def scatteredGates : Circuit where
  inputs := [⟨0, []⟩, ⟨5, []⟩, ⟨9, []⟩]
  gates :=
    [⟨.quadratic (.product (.var 5) (.var 5)), [5, 20], [7], []⟩, ⟨.split, [7], [20, 21, 22], []⟩,
      ⟨.pack, [22, 20], [30], []⟩, ⟨.xor, [20, 21], [33], []⟩, ⟨.zerop, [9], [40, 41], []⟩]
  outputs := [33, 41]

theorem evaluate_validated_scatteredGates :
    scatteredGates.validate = .ok () ∧
      ∃ w, scatteredGates.evaluate [1, .reduce 6, 0] = .ok w ∧ w.size = 42 ∧
        scatteredGates.Satisfies w.wire ∧ w.get? 8 = some 0 := by
  have hvalid : scatteredGates.validate = .ok () := by decide +kernel
  obtain ⟨hiff, hspec⟩ := evaluate_validated hvalid [1, .reduce 6, 0]
  have horder : Gate.InOrder Gate.reads scatteredGates.inputWires scatteredGates.gates :=
    ⟨by decide +kernel, by decide +kernel, by decide +kernel, by decide +kernel, by decide +kernel,
      trivial⟩
  obtain ⟨w, hw⟩ := hiff.mpr ⟨by decide, by simp [scatteredGates, Gate.Evaluable, Opcode.isLinear],
    Gate.inOrder_iff.mp horder⟩
  obtain ⟨hsize, -, hsat, hzero⟩ := hspec w hw
  have hsize : w.size = 42 := hsize.trans (by decide +kernel)
  exact ⟨hvalid, w, hw, hsize, hsat, hzero 8 (by rw [hsize]; decide) (by decide +kernel)⟩

end Circuit

end Quadratize
