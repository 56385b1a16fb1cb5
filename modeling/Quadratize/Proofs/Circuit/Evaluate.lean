import Quadratize.Circuit.Evaluate
import Quadratize.Proofs.Circuit.Layers

/-!
# Evaluation

Evaluation in order gives an assignment that satisfies every gate, and the equations of gates leave
no other one: an assignment that satisfies the gates is determined by its values on the primary
inputs.
-/

namespace Quadratize

/-! ## Values -/

namespace Values

variable {vs new : Values} {w : Wire} {a : Scalar}

/-- The value of a wire, or zero if it has none. -/
def value (vs : Values) (w : Wire) : Scalar :=
  (vs.lookup w).getD 0

theorem value_of_lookup (h : vs.lookup w = some a) : vs.value w = a := by
  rw [value, h, Option.getD_some]

theorem read_of_isSome (h : (vs.lookup w).isSome) : vs.read w = .ok (vs.value w) := by
  obtain ⟨a, ha⟩ := Option.isSome_iff_exists.mp h
  rw [read, ha, value_of_lookup ha]

theorem assign_eq (vs new : Values) : vs.assign new = new.reverse ++ vs := by
  induction new generalizing vs with
  | nil => rfl
  | cons p new ih =>
    rw [List.reverse_cons, List.append_assoc]
    exact ih (p :: vs)

theorem lookup_of_mem {vs : Values} (hnodup : (vs.map Prod.fst).Nodup) (h : (w, a) ∈ vs) :
    vs.lookup w = some a := by
  obtain ⟨l, m, rfl⟩ := List.append_of_mem h
  refine List.lookup_eq_some_iff.mpr ⟨l, m, rfl, fun p hp ↦ ?_⟩
  rw [List.map_append, List.map_cons] at hnodup
  have hne := (List.nodup_append.mp hnodup).2.2 p.1 (List.mem_map_of_mem hp) w List.mem_cons_self
  simpa using fun he ↦ hne (Eq.symm he)

theorem lookup_assign_of_notMem (h : w ∉ new.map Prod.fst) :
    (vs.assign new).lookup w = vs.lookup w := by
  rw [assign_eq, List.lookup_append, Wire.lookup_eq_none, Option.none_or]
  rwa [List.map_reverse, List.mem_reverse]

theorem lookup_assign_of_mem (hnodup : (new.map Prod.fst).Nodup) (h : (w, a) ∈ new) :
    (vs.assign new).lookup w = some a := by
  rw [assign_eq, List.lookup_append, lookup_of_mem, Option.some_or]
  · rwa [List.map_reverse, List.nodup_reverse]
  · exact List.mem_reverse.mpr h

theorem isSome_lookup_assign (hnodup : (new.map Prod.fst).Nodup) (h : w ∈ new.map Prod.fst) :
    ((vs.assign new).lookup w).isSome = true := by
  obtain ⟨p, hp, rfl⟩ := List.mem_map.mp h
  rw [lookup_assign_of_mem hnodup hp, Option.isSome_some]

/-- Slots of the witness hold the values of the wires with their numbers. -/
theorem get?_toWitness {n : Nat} (h : w.id < n) :
    (vs.toWitness n).get? w.id = some (vs.value w) := by
  have hfind : (vs.find? fun p ↦ p.1.id == w.id).map (·.2) = vs.lookup w := by
    induction vs with
    | nil => rfl
    | cons p vs ih =>
      rw [List.find?_cons, List.lookup_cons]
      by_cases he : w = p.1
      · rw [he, BEq.rfl, BEq.rfl]
        rfl
      · have hid : (p.1.id == w.id) = false := beq_false_of_ne fun h ↦ he (Wire.ext h.symm)
        rw [hid, beq_false_of_ne he]
        exact ih
  rw [toWitness, Witness.get?, List.getElem?_map, List.getElem?_range h, value, ← hfind]
  rfl

theorem size_toWitness (vs : Values) (n : Nat) : (vs.toWitness n).size = n := by
  rw [toWitness, Witness.size, List.length_map, List.length_range]

end Values

/-! ## One gate -/

namespace Gate

variable {vs : Values} {g : Gate}

/-- The kinds of gates that can be evaluated. -/
def Evaluable (g : Gate) : Prop :=
  g.op.isLinear = false ∧ g.op ≠ .mul

theorem packValue_eq_ok {q : Wire → Scalar} {i : Nat} {bits : List Wire}
    (h : ∀ w ∈ bits, vs.read w = .ok (q w)) : packValue vs i bits =
      .ok (((bits.map q).zipIdx i).map fun p ↦ Scalar.twoPow p.2 * p.1).sum := by
  induction bits generalizing i with
  | nil => rfl
  | cons w bits ih =>
    obtain ⟨hw, hbits⟩ := List.forall_mem_cons.mp h
    refine bind_eq_ok.mpr ⟨_, hw, bind_eq_ok.mpr ⟨_, ih hbits, ?_⟩⟩
    rw [mul_comm (q w)]
    rfl

theorem zeroTest_eq (a : Scalar) : zeroTest a = if a = 0 then (0, 0) else (a⁻¹, 1) := by
  unfold zeroTest
  split_ifs with ha
  · rw [ha, Scalar.inverse?_eq_none.mpr rfl]
  · rw [Scalar.inverse?_eq_some ha]

theorem map_fst_splitValues (a : Scalar) (bits : List Wire) :
    (splitValues a bits).map Prod.fst = bits := by
  rw [splitValues, List.map_map]
  exact List.zipIdx_map_fst 0 bits

theorem map_snd_splitValues (a : Scalar) (bits : List Wire) :
    (splitValues a bits).map Prod.snd = a.bits bits.length := by
  rw [Scalar.bits, List.range_eq_range', ← List.zipIdx_map_snd 0 bits, splitValues, List.map_map,
    List.map_map]
  rfl

/-- The values of the outputs of a gate make its equation hold. -/
theorem outputValues_spec {q : Wire → Scalar} (hg : g.Shaped) (hop : g.Evaluable)
    (hread : ∀ w ∈ g.reads, vs.read w = .ok (q w)) :
    ∃ new, g.outputValues vs = .ok new ∧ new.map Prod.fst = g.outs ∧
      ∀ r, (∀ w ∈ g.reads, r w = q w) → (∀ p ∈ new, r p.1 = p.2) → g.Holds r := by
  cases hg with
  | quadratic f ins z note =>
    refine ⟨[(z, f.eval q)], ?_, rfl, fun r hr hnew ↦ ?_⟩
    · exact bind_eq_ok.mpr ⟨_, QuadForm.tryEval_eq_ok hread, rfl⟩
    · exact (hnew _ List.mem_cons_self).trans (QuadForm.eval_congr hr).symm
  | split x b bs note =>
    have hx := hread x (by simp [reads])
    refine ⟨splitValues (q x) (b :: bs), bind_eq_ok.mpr ⟨_, hx, rfl⟩,
      map_fst_splitValues _ _, fun r hr hnew ↦ ?_⟩
    have hmap : ((splitValues (q x) (b :: bs)).map Prod.fst).map r =
        (splitValues (q x) (b :: bs)).map Prod.snd := by
      rw [List.map_map]
      exact List.map_congr_left hnew
    rw [map_fst_splitValues, map_snd_splitValues, ← hr x (by simp [reads])] at hmap
    exact hmap
  | pack b bs z note =>
    refine ⟨[(z, Scalar.bitSum ((b :: bs).map q))], bind_eq_ok.mpr ⟨_, packValue_eq_ok hread, rfl⟩,
      rfl, fun r hr hnew ↦ ?_⟩
    have hmap : (b :: bs).map r = (b :: bs).map q := List.map_congr_left hr
    have hz : r z = Scalar.bitSum ((b :: bs).map q) := hnew _ List.mem_cons_self
    rw [← hmap] at hz
    exact hz
  | zerop x m y note =>
    have hx := hread x (by simp [reads])
    refine ⟨[(m, (zeroTest (q x)).1), (y, (zeroTest (q x)).2)], bind_eq_ok.mpr ⟨_, hx, rfl⟩, rfl,
      fun r hr hnew ↦ ?_⟩
    obtain ⟨hm, hy, -⟩ := by simpa only [List.forall_mem_cons] using hnew
    rw [zeroTest_eq, ← hr x (by simp [reads])] at hm hy
    change if r x = 0 then r m = 0 ∧ r y = 0 else r m = (r x)⁻¹ ∧ r y = 1
    split_ifs at hm hy ⊢
    · exact ⟨hm, hy⟩
    · exact ⟨hm, hy⟩
  | xor x y z note =>
    have hx := hread x (by simp [reads])
    have hy := hread y (by simp [reads])
    refine ⟨[(z, q x + q y - (q x * q y + q x * q y))],
      bind_eq_ok.mpr ⟨_, hx, bind_eq_ok.mpr ⟨_, hy, rfl⟩⟩, rfl, fun r hr hnew ↦ ?_⟩
    have hz := hnew _ List.mem_cons_self
    change r z = r x + r y - 2 * r x * r y
    rw [hz, hr x (by simp [reads]), hr y (by simp [reads])]
    ring
  | mul x y z note => exact absurd rfl hop.2
  | _ => cases hop.1

/-- The equation of a gate determines its outputs. -/
theorem eq_of_holds {r q : Wire → Scalar} (hg : g.Shaped) (hr : g.Holds r) (hq : g.Holds q)
    (hreads : ∀ w ∈ g.reads, r w = q w) : ∀ w ∈ g.outs, r w = q w := by
  cases hg with
  | quadratic f ins z note =>
    refine List.forall_mem_singleton.mpr ?_
    exact hr.trans ((QuadForm.eval_congr hreads).trans (Eq.symm hq))
  | split x b bs note =>
    have hx : r x = q x := hreads x (by simp [reads])
    have hr' : (b :: bs).map r = (r x).bits (b :: bs).length := hr
    have hq' : (b :: bs).map q = (q x).bits (b :: bs).length := hq
    rw [hx, ← hq'] at hr'
    exact List.map_inj_left.mp hr'
  | pack b bs z note =>
    have hmap : (b :: bs).map r = (b :: bs).map q := List.map_congr_left hreads
    have hr' : r z = Scalar.bitSum ((b :: bs).map r) := hr
    refine List.forall_mem_singleton.mpr ?_
    rw [hr', hmap]
    exact Eq.symm hq
  | zerop x m y note =>
    have hx : r x = q x := hreads x (by simp [reads])
    have hr' : if r x = 0 then r m = 0 ∧ r y = 0 else r m = (r x)⁻¹ ∧ r y = 1 := hr
    have hq' : if q x = 0 then q m = 0 ∧ q y = 0 else q m = (q x)⁻¹ ∧ q y = 1 := hq
    rw [hx] at hr'
    simp only [List.forall_mem_cons]
    split_ifs at hr' hq'
    · exact ⟨hr'.1.trans hq'.1.symm, hr'.2.trans hq'.2.symm, List.forall_mem_nil _⟩
    · exact ⟨hr'.1.trans hq'.1.symm, hr'.2.trans hq'.2.symm, List.forall_mem_nil _⟩
  | constMul c x z note =>
    have hx : r x = q x := hreads x (by simp [reads])
    refine List.forall_mem_singleton.mpr ?_
    exact (show r z = c * r x from hr).trans (hx ▸ Eq.symm hq)
  | _ =>
    simp only [reads, List.forall_mem_cons] at hreads
    simp only [Holds, hreads] at hr hq
    refine List.forall_mem_singleton.mpr ?_
    rw [hr, hq]

end Gate

/-! ## All gates -/

/-- Assignments that agree on the wires that are ready and satisfy the gates agree on what the
gates drive. -/
theorem Gate.agree_of_inOrder {ready : List Wire} {gates : List Gate} {r q : Wire → Scalar}
    (hgates : ∀ g ∈ gates, g.Shaped) (horder : Gate.InOrder Gate.reads ready gates)
    (hr : ∀ g ∈ gates, g.Holds r) (hq : ∀ g ∈ gates, g.Holds q) (hready : ∀ w ∈ ready, r w = q w) :
    ∀ w ∈ ready ++ gates.flatMap Gate.outs, r w = q w := by
  induction gates generalizing ready with
  | nil => simpa using hready
  | cons g rest ih =>
    obtain ⟨hg, hrest⟩ := List.forall_mem_cons.mp hgates
    obtain ⟨hrg, hr⟩ := List.forall_mem_cons.mp hr
    obtain ⟨hqg, hq⟩ := List.forall_mem_cons.mp hq
    have houts := eq_of_holds hg hrg hqg fun w hw ↦ hready w (horder.1 w hw)
    rw [List.flatMap_cons, ← List.append_assoc]
    refine ih hrest horder.2 hr hq fun w hw ↦ ?_
    exact (List.mem_append.mp hw).elim (hready w) (houts w)

namespace Circuit

/-- Evaluation in order assigns every output and satisfies every gate. -/
theorem evaluateGates_spec {ready : List Wire} {gates : List Gate} {vs : Values}
    (hgates : ∀ g ∈ gates, g.Shaped ∧ g.Evaluable)
    (horder : Gate.InOrder Gate.reads ready gates)
    (hnodup : (ready ++ gates.flatMap Gate.outs).Nodup)
    (hvs : ∀ w ∈ ready, (vs.lookup w).isSome = true) :
    ∃ vs', evaluateGates vs gates = .ok vs' ∧
      (∀ w, w ∉ gates.flatMap Gate.outs → vs'.lookup w = vs.lookup w) ∧
      (∀ w ∈ gates.flatMap Gate.outs, (vs'.lookup w).isSome = true) ∧
      ∀ g ∈ gates, g.Holds vs'.value := by
  induction gates generalizing ready vs with
  | nil => exact ⟨vs, rfl, fun _ _ ↦ rfl, nofun, nofun⟩
  | cons g rest ih =>
    obtain ⟨⟨hshape, hop⟩, hrest⟩ := List.forall_mem_cons.mp hgates
    rw [List.flatMap_cons, ← List.append_assoc] at hnodup
    obtain ⟨hready, -, hlater⟩ := List.nodup_append.mp hnodup
    obtain ⟨-, houts, hfresh⟩ := List.nodup_append.mp hready
    obtain ⟨new, hnew, hkeys, hholds⟩ := Gate.outputValues_spec hshape hop fun w hw ↦
      Values.read_of_isSome (hvs w (horder.1 w hw))
    have hkept {w : Wire} (hw : w ∈ ready) : (vs.assign new).lookup w = vs.lookup w :=
      Values.lookup_assign_of_notMem fun hmem ↦ hfresh w hw w (hkeys ▸ hmem) rfl
    have hvs' : ∀ w ∈ ready ++ g.outs, ((vs.assign new).lookup w).isSome = true := by
      intro w hw
      rcases List.mem_append.mp hw with hw | hw
      · rw [hkept hw]
        exact hvs w hw
      · exact Values.isSome_lookup_assign (hkeys ▸ houts) (hkeys ▸ hw)
    obtain ⟨vs', heval, hsame, hsome, hsat⟩ := ih hrest horder.2 hnodup hvs'
    have hlast {w : Wire} (hw : w ∈ ready ++ g.outs) : vs'.lookup w = (vs.assign new).lookup w :=
      hsame w fun hmem ↦ hlater w hw w hmem rfl
    refine ⟨vs', bind_eq_ok.mpr ⟨new, hnew, heval⟩, fun w hw ↦ ?_, fun w hw ↦ ?_, fun a ha ↦ ?_⟩
    · rw [List.flatMap_cons, List.mem_append, not_or] at hw
      rw [hsame w hw.2, Values.lookup_assign_of_notMem (hkeys ▸ hw.1)]
    · rw [List.flatMap_cons] at hw
      rcases List.mem_append.mp hw with hw | hw
      · rw [hlast (List.mem_append_right _ hw)]
        exact hvs' w (List.mem_append_right _ hw)
      · exact hsome w hw
    · rcases List.mem_cons.mp ha with rfl | ha
      · refine hholds _ (fun w hw ↦ ?_) fun p hp ↦ Values.value_of_lookup ?_
        · have hw := horder.1 w hw
          rw [Values.value, hlast (List.mem_append_left _ hw), hkept hw, Values.value]
        · rw [hlast (List.mem_append_right _ (hkeys ▸ List.mem_map_of_mem hp)),
            Values.lookup_assign_of_mem (hkeys ▸ houts) hp]
      · exact hsat a ha

/-! ## The witness -/

section

variable {c : Circuit} {v : List Scalar}

theorem checkInputs_eq_ok :
    checkInputs c v = .ok () ↔ v.length = c.inputs.length ∧ ∀ a ∈ v.head?, a = 1 := by
  unfold checkInputs
  split_ifs with hlength
  · cases v with
    | nil => simpa using hlength
    | cons a v =>
      simp only [List.head?_cons, Option.mem_some_iff, forall_eq']
      split_ifs with ha
      · exact ⟨fun _ ↦ ⟨hlength, ha⟩, fun _ ↦ rfl⟩
      · exact ⟨nofun, fun h ↦ absurd h.2 ha⟩
  · exact ⟨nofun, fun h ↦ absurd h.1 hlength⟩

theorem map_zip_inputWires (hlength : v.length = c.inputs.length) :
    (c.inputWires.zip v).map Prod.fst = c.inputWires ∧ (c.inputWires.zip v).map Prod.snd = v := by
  have hlength' : c.inputWires.length = v.length := by rw [inputWires, List.length_map, hlength]
  exact ⟨List.map_fst_zip (Nat.le_of_eq hlength'), List.map_snd_zip (Nat.le_of_eq hlength'.symm)⟩

/-- A circuit in evaluation order can be evaluated on every list of values that starts with one.
The witness holds the values of an assignment that satisfies the circuit. -/
theorem evaluate_spec (hgates : ∀ g ∈ c.gates, g.Shaped ∧ g.Evaluable) (hnodup : c.driven.Nodup)
    (horder : Gate.InOrder Gate.reads c.inputWires c.gates)
    (hlength : v.length = c.inputs.length) (hhead : ∀ a ∈ v.head?, a = 1) :
    ∃ w r, c.evaluate v = .ok w ∧ w.size = c.idBound ∧ c.Satisfies r ∧
      c.inputWires.map r = v ∧ ∀ x ∈ c.wires, w.get? x.id = some (r x) := by
  obtain ⟨hinputs, -, hfresh⟩ := List.nodup_append.mp hnodup
  obtain ⟨hfst, hsnd⟩ := map_zip_inputWires hlength
  have hstart : ∀ p ∈ c.inputWires.zip v,
      (Values.assign [] (c.inputWires.zip v)).lookup p.1 = some p.2 := fun p hp ↦
    Values.lookup_assign_of_mem (hfst.symm ▸ hinputs) hp
  have hassigned : ∀ x ∈ c.inputWires,
      ((Values.assign [] (c.inputWires.zip v)).lookup x).isSome = true := by
    intro x hx
    rw [← hfst] at hx
    obtain ⟨p, hp, rfl⟩ := List.mem_map.mp hx
    rw [hstart p hp]
    rfl
  obtain ⟨vs, heval, hsame, -, hsat⟩ := evaluateGates_spec hgates horder hnodup hassigned
  refine ⟨vs.toWitness c.idBound, vs.value, ?_, Values.size_toWitness _ _, hsat, ?_, ?_⟩
  · exact bind_eq_ok.mpr ⟨(), checkInputs_eq_ok.mpr ⟨hlength, hhead⟩,
      bind_eq_ok.mpr ⟨vs, heval, rfl⟩⟩
  · have hvalue : ∀ p ∈ c.inputWires.zip v, vs.value p.1 = p.2 := by
      intro p hp
      have hmem : p.1 ∈ c.inputWires := hfst ▸ List.mem_map_of_mem hp
      refine Values.value_of_lookup ?_
      rw [hsame p.1 fun hout ↦ hfresh p.1 hmem p.1 hout rfl, hstart p hp]
    have hmap : ((c.inputWires.zip v).map Prod.fst).map vs.value =
        (c.inputWires.zip v).map Prod.snd := by
      rw [List.map_map]
      exact List.map_congr_left hvalue
    rwa [hfst, hsnd] at hmap
  · exact fun x hx ↦ Values.get?_toWitness (id_lt_idBound hx)

end

end Circuit

end Quadratize
