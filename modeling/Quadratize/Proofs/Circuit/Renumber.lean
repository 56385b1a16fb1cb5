import Quadratize.Proofs.Circuit.Visit

/-!
# Canonical numberings

A numbering replaces every wire of a circuit, in gates and in their forms, and changes nothing else.
The new names are the numbers below the count of the wires: first the primary inputs, then the
outputs of gates in the order of the visit, last the declared outputs.  If the visit waits for all
inputs of a gate, the numbers ascend along the gates, but for the declared outputs.
-/

namespace Quadratize

/-! ## Replaced wires -/

section

variable {m : Wire → Wire}

/-- The second sum has the terms of the first with their wires replaced. -/
def Affine.Replaced (m : Wire → Wire) (a b : Affine Wire) : Prop :=
  b.terms.Perm (a.terms.map fun t ↦ (t.1.map m, t.2))

theorem Affine.replaced_rename {a : Affine Wire} (hm : Set.InjOn m {w | w ∈ vars a}) :
    Replaced m a (a.rename m) := by
  refine Sparse.terms_map_perm fun j hj k hk he ↦ ?_
  cases j with
  | none =>
    cases k with
    | none => rfl
    | some w => cases he
  | some v =>
    cases k with
    | none => cases he
    | some w => rw [hm (mem_vars.mpr hj) (mem_vars.mpr hk) (Option.some.inj he)]

theorem Affine.Replaced.isZero {a b : Affine Wire} (h : Replaced m a b) : b.isZero = a.isZero := by
  rw [Sparse.isZero, h.isEmpty_eq, List.isEmpty_map, Sparse.isZero]

/-- The second product has the sides of the first with their wires replaced. -/
structure Product.Replaced (m : Wire → Wire) (p q : Product) : Prop where
  lhs : p.lhs.Replaced m q.lhs
  rhs : p.rhs.Replaced m q.rhs

theorem Product.replaced_rename {p : Product} (hm : Set.InjOn m {w | w ∈ p.wires}) :
    p.Replaced m (p.rename m) where
  lhs := Affine.replaced_rename (hm.mono fun _ hw ↦ mem_wires.mpr (.inl hw))
  rhs := Affine.replaced_rename (hm.mono fun _ hw ↦ mem_wires.mpr (.inr hw))

theorem Product.Replaced.isZero {p q : Product} (h : p.Replaced m q) : q.isZero = p.isZero := by
  rw [Product.isZero, h.lhs.isZero, h.rhs.isZero, Product.isZero]

/-- The second form has the products of the first, in their order, with their wires replaced. -/
def QuadForm.Replaced (m : Wire → Wire) (f g : QuadForm) : Prop :=
  List.Forall₂ (Product.Replaced m) f.terms g.terms

/-- No product is left out when wires are told apart. -/
theorem QuadForm.replaced_rename {f : QuadForm} (hm : Set.InjOn m {w | w ∈ f.wires}) :
    f.Replaced m (f.rename m) := by
  have hterms : ∀ p ∈ f.terms, p.Replaced m (p.rename m) := fun p hp ↦
    Product.replaced_rename (hm.mono fun _ hw ↦ mem_wires.mpr ⟨p, hp, hw⟩)
  have hkeep : (f.rename m).terms = f.terms.map (Product.rename m) := by
    refine List.filter_eq_self.mpr fun q hq ↦ ?_
    obtain ⟨p, hp, rfl⟩ := List.mem_map.mp hq
    rw [(hterms p hp).isZero, f.nonzero p hp, Bool.not_false]
  rw [Replaced, hkeep, List.forall₂_map_right_iff]
  exact List.forall₂_same.mpr hterms

/-- The second operation is the first, with the wires of a form replaced. -/
inductive Opcode.Replaced (m : Wire → Wire) : Opcode → Opcode → Prop
  | form {f g : QuadForm} : f.Replaced m g → Replaced m (quadratic f) (quadratic g)
  | same {op : Opcode} : op.isQuadratic = false → Replaced m op op

/-- The second gate is the first with its wires and those of its form replaced. -/
structure Gate.Replaced (m : Wire → Wire) (g d : Gate) : Prop where
  op : g.op.Replaced m d.op
  ins : d.ins = g.ins.map m
  outs : d.outs = g.outs.map m
  note : d.note = g.note

theorem Gate.WellFormed.replaced_rename {g : Gate} (hg : g.WellFormed)
    (hm : Set.InjOn m {w | w ∈ g.ins}) : g.Replaced m (g.rename m) := by
  refine ⟨?_, rfl, rfl, rfl⟩
  have hform := hg.form
  obtain ⟨op, ins, outs, note⟩ := g
  cases op with
  | quadratic f => exact .form (QuadForm.replaced_rename (hm.mono fun w hw ↦ hform w hw))
  | _ => exact .same rfl

/-- The second circuit is the first with the wires of its inputs, gates and declared outputs
replaced. -/
structure Circuit.Replaced (m : Wire → Wire) (c d : Circuit) : Prop where
  inputs : d.inputs = c.inputs.map fun i ↦ { i with wire := m i.wire }
  gates : List.Forall₂ (Gate.Replaced m) c.gates d.gates
  outputs : d.outputs = c.outputs.map m

theorem Circuit.replaced_rename {c : Circuit} (hc : ∀ g ∈ c.gates, g.WellFormed)
    (hm : Set.InjOn m {w | w ∈ c.wires}) : c.Replaced m (c.rename m) := by
  refine ⟨rfl, List.forall₂_map_right_iff.mpr (List.forall₂_same.mpr fun g hg ↦ ?_), rfl⟩
  exact (hc g hg).replaced_rename (hm.mono fun w hw ↦ mem_wires_of_gate hg (.inl hw))

end

namespace Circuit

variable {c d : Circuit} {order : WireOrder} {ws : List Wire} {x y : Wire}

/-! ## In place -/

/-- Numbers the wires of a circuit in memory, which is written once every wire has a number.  The
result lists the old wires in the order of their new numbers. -/
def renumberInPlace (order : WireOrder) : ExceptT Malformed (StateM Circuit) (List Wire) := do
  let c ← get
  match c.numbering order with
  | .error e => throw e
  | .ok ws =>
    set (c.rename (numberIn ws))
    return ws

theorem run_renumberInPlace (order : WireOrder) (c : Circuit) :
    (renumberInPlace order).run.run c =
      match c.renumber order with
      | .error e => (.error e, c)
      | .ok (d, ws) => (.ok ws, d) := by
  rw [renumberInPlace, run_get_bind, renumber]
  cases c.numbering order with
  | error e => rfl
  | ok ws => rfl

/-! ## Who gets which number -/

/-- The declared outputs that are no primary inputs, in the order of their first occurrences. -/
def lastOutputs (c : Circuit) : List Wire :=
  (c.outputs.filter (· ∉ c.inputWires)).eraseDups

theorem numbering_eq_append (h : c.numbering order = .ok ws) :
    ∃ visited, ws = visited ++ c.lastOutputs := by
  obtain ⟨visited, rfl, -, hinputs, hvisited, -⟩ := numbering_spec h
  refine ⟨visited, ?_⟩
  have hfilter : c.outputs.filter (· ∉ visited) = c.outputs.filter (· ∉ c.inputWires) := by
    refine List.filter_congr fun w hw ↦ decide_eq_decide.mpr (not_congr ?_)
    constructor
    · exact fun hmem ↦ (hvisited w hmem).resolve_right fun hout ↦ hout.2 hw
    · exact fun hin ↦ hinputs.subset (Visit.mem_foldl_addNumber.mpr (.inr hin))
  rw [Visit.foldl_addNumber_eq, hfilter, lastOutputs]

theorem length_numbering (h : c.numbering order = .ok ws) : ws.length = c.numVariables := by
  have hwires : c.wires.Nodup := Wire.nodup_of_pairwise (Wire.pairwise_ascending _)
  exact ((List.perm_ext_iff_of_nodup (nodup_numbering h) hwires).mpr
    fun _ ↦ mem_numbering h).length_eq

theorem bijOn_numberIn (h : c.numbering order = .ok ws) :
    Set.BijOn (fun w ↦ (numberIn ws w).id) {w | w ∈ c.wires} {i | i < c.numVariables} := by
  have hnodup := nodup_numbering h
  refine ⟨fun w hw ↦ ?_, fun v hv w hw he ↦ ?_, fun i hi ↦ ?_⟩
  · have hmem := (mem_numbering h).mpr hw
    change (numberIn ws w).id < c.numVariables
    rw [id_numberIn hnodup hmem, ← length_numbering h]
    exact List.idxOf_lt_length_of_mem hmem
  · exact injOn_renumber h hv hw (Wire.ext he)
  · have hlt : i < ws.length := (length_numbering h).symm ▸ hi
    have hmem := List.getElem_mem hlt
    refine ⟨ws[i], (mem_numbering h).mp hmem, ?_⟩
    change (numberIn ws ws[i]).id = i
    rw [id_numberIn hnodup hmem, hnodup.idxOf_getElem]

/-- The numbers of the undeclared outputs of a gate are larger than those of its inputs, but for
inputs that are declared outputs and no primary inputs. -/
theorem Valid.id_numberIn_lt_of_mem (hc : c.Valid) (h : c.numbering .allInputsReady = .ok ws)
    {g : Gate} (hg : g ∈ c.gates) (hx : x ∈ g.ins) (hy : y ∈ g.outs) (hyout : y ∉ c.outputs)
    (hxout : x ∈ c.inputWires ∨ x ∉ c.outputs) : (numberIn ws x).id < (numberIn ws y).id := by
  obtain ⟨visited, hperm, horder, rest, hrest⟩ := hc.prefix_numbering h
  obtain ⟨before, after, rfl⟩ := List.append_of_mem (hperm.mem_iff.mpr hg)
  have hready := horder.mem_ready (List.mem_append_right before (List.mem_singleton_self g)) hx
  -- The numbers of the inputs stand in front of those that the gate itself gives.
  have hfront : x ∈ c.inputWires ++ (before.flatMap Gate.outs).filter (· ∉ c.outputs) := by
    rcases List.mem_append.mp hready with hin | hmem
    · exact List.mem_append_left _ hin
    · rcases hxout with hin | hout
      · exact List.mem_append_left _ hin
      · exact List.mem_append_right _ (List.mem_filter.mpr ⟨hmem, by simpa using hout⟩)
  have hback : y ∈ ((g :: after).flatMap Gate.outs).filter (· ∉ c.outputs) := by
    refine List.mem_filter.mpr ⟨?_, by simpa using hyout⟩
    exact List.mem_flatMap.mpr ⟨g, List.mem_cons_self, hy⟩
  rw [List.flatMap_append, List.filter_append, ← List.append_assoc, List.append_assoc] at hrest
  have hnodup := nodup_numbering h
  subst hrest
  exact id_numberIn_lt hnodup hfront (List.mem_append_left rest hback)

/-! ## Canonical numberings -/

/-- The second circuit is the first with its wires replaced by their numbers: all numbers below the
count of the wires are used, the primary inputs come first and the declared outputs last, and if
gates wait for all of their inputs then numbers ascend from the inputs of a gate to its undeclared
outputs. -/
structure Renumbered (order : WireOrder) (m : Wire → Wire) (c d : Circuit) : Prop where
  bijOn : Set.BijOn (fun w ↦ (m w).id) {w | w ∈ c.wires} {i | i < c.numVariables}
  replaced : c.Replaced m d
  inputs : c.inputWires.map (fun w ↦ (m w).id) = List.range c.inputs.length
  outputs : ∃ k, k + c.lastOutputs.length = c.numVariables ∧
    c.lastOutputs.map (fun w ↦ (m w).id) = List.range' k c.lastOutputs.length
  ascends : order = .allInputsReady → ∀ g ∈ c.gates, ∀ x ∈ g.ins, ∀ y ∈ g.outs, y ∉ c.outputs →
    x ∈ c.inputWires ∨ x ∉ c.outputs → (m x).id < (m y).id

theorem Valid.renumbered (hc : c.Valid) (h : c.renumber order = .ok (d, ws)) :
    Renumbered order (numberIn ws) c d := by
  obtain ⟨hnum, rfl⟩ := renumber_eq_ok.mp h
  refine ⟨bijOn_numberIn hnum, replaced_rename hc.gates (injOn_renumber hnum), ?_, ?_, ?_⟩
  · have hids := ids_inputWires_renumber hc.toWellFormed h
    rwa [inputWires_rename, List.map_map] at hids
  · obtain ⟨visited, hws⟩ := numbering_eq_append hnum
    have hnodup := nodup_numbering hnum
    rw [hws] at hnodup
    refine ⟨visited.length, ?_, ?_⟩
    · rw [← length_numbering hnum, hws, List.length_append]
    · rw [hws, map_numberIn_append hnodup]
  · rintro rfl g hg x hx y hy hyout hxout
    exact hc.id_numberIn_lt_of_mem hnum hg hx hy hyout hxout

/-- A renumbering that succeeds is canonical and lists every wire, and one that fails leaves the
circuit as it was. -/
theorem renumber_canonical (hvalid : c.validate = .ok ()) (order : WireOrder) :
    (∀ d ws, c.renumber order = .ok (d, ws) →
      (renumberInPlace order).run.run c = (.ok ws, d) ∧ (∀ w, w ∈ ws ↔ w ∈ c.wires) ∧
      Renumbered order (numberIn ws) c d) ∧
    ∀ e, c.renumber order = .error e → (renumberInPlace order).run.run c = (.error e, c) := by
  have hc := validate_eq_ok.mp hvalid
  have hrun := run_renumberInPlace order c
  constructor
  · intro d ws h
    rw [h] at hrun
    exact ⟨hrun, fun w ↦ mem_numbering (renumber_eq_ok.mp h).1, hc.renumbered h⟩
  · intro e h
    rwa [h] at hrun

/-- A declared output is read by a gate in front of the one that drives it, another one is a primary
input, and one gate reads nothing. -/
def outputRead : Circuit where
  inputs := [⟨5, []⟩, ⟨2, []⟩]
  gates := [⟨.quadratic (.product (.var 9) (.var 9)), [9], [4], []⟩, ⟨.add, [2, 2], [9], []⟩,
    ⟨.quadratic (.linear (.constant (-1))), [], [3], []⟩, ⟨.mul, [4, 3], [8], []⟩]
  outputs := [9, 2, 9, 8]

theorem renumber_canonical_outputRead :
    outputRead.validate = .ok () ∧
    (∃ d ws, outputRead.renumber .allInputsReady = .ok (d, ws) ∧
      (renumberInPlace .allInputsReady).run.run outputRead = (.ok ws, d) ∧
      ws = [5, 2, 3, 4, 9, 8] ∧ Renumbered .allInputsReady (numberIn ws) outputRead d) ∧
    ∃ e, outputRead.renumber .firstReadyInput = .error e ∧
      (renumberInPlace .firstReadyInput).run.run outputRead = (.error e, outputRead) := by
  have hvalid : outputRead.validate = .ok () := by decide
  refine ⟨hvalid, ?_, ?_⟩
  · obtain ⟨⟨d, ws⟩, h, hws⟩ := exists_ok_of_any (x := outputRead.renumber .allInputsReady)
      (P := fun x ↦ decide (x.2 = [5, 2, 3, 4, 9, 8])) (by decide +kernel)
    obtain ⟨hrun, -, hd⟩ := (renumber_canonical hvalid .allInputsReady).1 d ws h
    exact ⟨d, ws, h, hrun, of_decide_eq_true hws, hd⟩
  · cases h : outputRead.renumber .firstReadyInput with
    | error e => exact ⟨e, rfl, (renumber_canonical hvalid .firstReadyInput).2 e h⟩
    | ok x =>
      have hnone : (outputRead.renumber .firstReadyInput).toOption = none := by decide +kernel
      rw [h] at hnone
      cases hnone

end Circuit

end Quadratize
