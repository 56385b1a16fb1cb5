import Mathlib.Data.Finset.Card
import Mathlib.Data.List.Perm.Basic
import Quadratize.Circuit.Numbering
import Quadratize.Proofs.Circuit.Rename
import Quadratize.Proofs.Wire

/-!
# Numbering wires

A visit gives numbers to primary inputs and to undeclared outputs of gates only, and to each of
them once.  Since a numbering is refused unless every wire of the circuit has a number, the wires
of the circuit are renamed to the numbers below their count.
-/

namespace Quadratize

namespace Visit

theorem mem_addNumber {ws : List Wire} {v w : Wire} : v ∈ addNumber ws w ↔ v ∈ ws ∨ v = w := by
  unfold addNumber
  split_ifs with h
  · exact ⟨.inl, fun hv ↦ hv.elim id fun he ↦ he ▸ h⟩
  · rw [List.mem_append, List.mem_singleton]

theorem nodup_addNumber {ws : List Wire} (h : ws.Nodup) (w : Wire) : (addNumber ws w).Nodup := by
  unfold addNumber
  split_ifs with hw
  · exact h
  · exact List.nodup_append.mpr ⟨h, List.nodup_singleton w, fun v hv u hu he ↦
      hw (List.mem_singleton.mp hu ▸ he ▸ hv)⟩

theorem prefix_addNumber (ws : List Wire) (w : Wire) : ws <+: addNumber ws w := by
  unfold addNumber
  split_ifs
  · exact List.prefix_refl ws
  · exact List.prefix_append ws [w]

theorem mem_foldl_addNumber {new ws : List Wire} {v : Wire} :
    v ∈ new.foldl addNumber ws ↔ v ∈ ws ∨ v ∈ new := by
  induction new generalizing ws with
  | nil => simp
  | cons w new ih => rw [List.foldl_cons, ih, mem_addNumber, List.mem_cons, or_assoc]

theorem nodup_foldl_addNumber {new ws : List Wire} (h : ws.Nodup) :
    (new.foldl addNumber ws).Nodup := by
  induction new generalizing ws with
  | nil => exact h
  | cons w new ih => exact ih (nodup_addNumber h w)

theorem prefix_foldl_addNumber (new ws : List Wire) : ws <+: new.foldl addNumber ws := by
  induction new generalizing ws with
  | nil => exact List.prefix_refl ws
  | cons w new ih => exact (prefix_addNumber ws w).trans (ih _)

/-- Wires without numbers get the next ones in their order. -/
theorem foldl_addNumber_eq_append {new ws : List Wire} (h : (ws ++ new).Nodup) :
    new.foldl addNumber ws = ws ++ new := by
  induction new generalizing ws with
  | nil => simp
  | cons w new ih =>
    have hw : w ∉ ws := fun hmem ↦
      (List.nodup_append.mp h).2.2 w hmem w List.mem_cons_self rfl
    rw [List.foldl_cons, addNumber, if_neg hw, ih (by simpa using h), List.append_assoc,
      List.singleton_append]

/-- Wires that have numbers keep them, and the others get the next ones in the order of their first
occurrences. -/
theorem foldl_addNumber_eq (new ws : List Wire) :
    new.foldl addNumber ws = ws ++ (new.filter (· ∉ ws)).eraseDups := by
  induction new generalizing ws with
  | nil => simp
  | cons w new ih =>
    rw [List.foldl_cons, addNumber]
    split_ifs with hw
    · rw [ih, List.filter_cons_of_neg (by simpa using hw)]
    · rw [ih, List.filter_cons_of_pos (by simpa using hw), List.eraseDups_cons, List.append_assoc,
        List.singleton_append, List.filter_filter]
      congr 4
      funext v
      rw [Bool.eq_iff_iff]
      simp [and_comm]

/-! ## A visit -/

@[simp] theorem numbered_notify (order : WireOrder) (v : Visit) (p : Nat) :
    (v.notify order p).numbered = v.numbered := by
  cases order <;> rfl

@[simp] theorem numbered_discover (order : WireOrder) (gates : List Gate) (v : Visit) (w : Wire) :
    (v.discover order gates w).numbered = v.numbered := by
  unfold discover
  induction Gate.consumers gates w generalizing v with
  | nil => rfl
  | cons p ps ih => rw [List.foldl_cons, ih, numbered_notify]

theorem numbered_reach (order : WireOrder) (c : Circuit) (v : Visit) (w : Wire) :
    (reach order c v w).numbered =
      if w ∈ c.outputs then v.numbered else addNumber v.numbered w := by
  unfold reach
  split_ifs with hw
  · cases order
    · exact numbered_discover _ _ _ _
    · rfl
  · rw [numbered_discover, number]

/-- The undeclared outputs of a gate get the next numbers. -/
theorem numbered_foldl_reach {order : WireOrder} {c : Circuit} {v : Visit} {ws : List Wire}
    (h : (v.numbered ++ ws).Nodup) :
    (ws.foldl (reach order c) v).numbered = v.numbered ++ ws.filter (· ∉ c.outputs) := by
  induction ws generalizing v with
  | nil => simp
  | cons w ws ih =>
    have hw : w ∉ v.numbered := fun hmem ↦
      (List.nodup_append.mp h).2.2 w hmem w List.mem_cons_self rfl
    have hreach := numbered_reach order c v w
    rw [List.foldl_cons]
    by_cases hout : w ∈ c.outputs
    · rw [if_pos hout] at hreach
      have hnodup : (v.numbered ++ ws).Nodup :=
        h.sublist ((List.sublist_cons_self w ws).append_left _)
      rw [ih (by rwa [hreach]), hreach, List.filter_cons_of_neg (by simpa using hout)]
    · rw [if_neg hout, addNumber, if_neg hw] at hreach
      rw [ih (by rw [hreach]; simpa using h), hreach, List.filter_cons_of_pos (by simpa using hout),
        List.append_assoc, List.singleton_append]

theorem numbered_start (order : WireOrder) (c : Circuit) :
    (start order c).numbered = c.inputWires.foldl addNumber [] := by
  have hfold (ws : List Wire) (v : Visit) :
      (ws.foldl (fun v w ↦ v.discover order c.gates w) v).numbered = v.numbered := by
    induction ws generalizing v with
    | nil => rfl
    | cons w ws ih => rw [List.foldl_cons, ih, numbered_discover]
  rw [start, hfold]

/-- What giving a number to an undeclared output of a gate preserves, a visit preserves. -/
theorem numbered_run {order : WireOrder} {c : Circuit} {P : List Wire → Prop}
    (hstep : ∀ ws w, P ws → (∃ g ∈ c.gates, w ∈ g.outs) → w ∉ c.outputs → P (addNumber ws w))
    (waiting : List (Gate × Nat)) (v : Visit) (hwaiting : ∀ x ∈ waiting, x.1 ∈ c.gates)
    (hv : P v.numbered) : P (run order c waiting v).2.numbered := by
  have hreach {g : Gate} (hg : g ∈ c.gates) (ws : List Wire) (hws : ws ⊆ g.outs) (v : Visit)
      (hv : P v.numbered) : P (ws.foldl (reach order c) v).numbered := by
    induction ws generalizing v with
    | nil => exact hv
    | cons w ws ih =>
      obtain ⟨hw, hws⟩ := List.cons_subset.mp hws
      refine ih hws _ ?_
      rw [numbered_reach]
      split_ifs with hout
      · exact hv
      · exact hstep _ w hv ⟨g, hg, hw⟩ hout
  fun_induction run order c waiting v with
  | case1 waiting v hnext => exact hv
  | case2 waiting v g p queue hnext ih =>
    refine ih (fun x hx ↦ hwaiting x (List.mem_of_mem_filter hx)) ?_
    exact hreach (hwaiting _ (mem_of_next? hnext)) g.outs (List.Subset.refl _) _ hv

end Visit

namespace Circuit

variable {c : Circuit} {order : WireOrder} {ws : List Wire}

/-- A numbering succeeds if the visit reaches every gate and every wire gets a number. -/
theorem numbering_eq_ok : c.numbering order = .ok ws ↔
    ∃ v, Visit.run order c c.gates.zipIdx (Visit.start order c) = ([], v) ∧
      ws = c.outputs.foldl Visit.addNumber v.numbered ∧ ∀ w ∈ c.wires, w ∈ ws := by
  unfold numbering
  constructor
  · intro h
    split at h
    · cases h
    · rename_i v hrun
      dsimp only at h
      split at h
      · cases h
      · rename_i hfind
        obtain rfl := Except.ok.inj h
        exact ⟨v, hrun, rfl, fun w hw ↦ by simpa using List.find?_eq_none.mp hfind w hw⟩
  · rintro ⟨v, hrun, rfl, hwires⟩
    have hfind : c.wires.find? (· ∉ c.outputs.foldl Visit.addNumber v.numbered) = none :=
      List.find?_eq_none.mpr fun w hw ↦ by simpa using hwires w hw
    rw [hrun]
    dsimp only
    rw [hfind]

/-- The numbers go to the primary inputs, to undeclared outputs of gates, and last to the declared
outputs. -/
theorem numbering_spec (h : c.numbering order = .ok ws) :
    ∃ visited, ws = c.outputs.foldl Visit.addNumber visited ∧ visited.Nodup ∧
      c.inputWires.foldl Visit.addNumber [] <+: visited ∧
      (∀ w ∈ visited, w ∈ c.inputWires ∨ (∃ g ∈ c.gates, w ∈ g.outs) ∧ w ∉ c.outputs) ∧
      ∀ w ∈ c.wires, w ∈ ws := by
  obtain ⟨v, hrun, rfl, hwires⟩ := numbering_eq_ok.mp h
  have hv : v = (Visit.run order c c.gates.zipIdx (Visit.start order c)).2 := by rw [hrun]
  have hwaiting : ∀ x ∈ c.gates.zipIdx, x.1 ∈ c.gates := fun x hx ↦ List.fst_mem_of_mem_zipIdx hx
  refine ⟨v.numbered, rfl, ?_, ?_, ?_, hwires⟩
  · rw [hv]
    refine Visit.numbered_run (P := List.Nodup) (fun ws w hws _ _ ↦ Visit.nodup_addNumber hws w)
      _ _ hwaiting ?_
    rw [Visit.numbered_start]
    exact Visit.nodup_foldl_addNumber .nil
  · rw [hv]
    refine Visit.numbered_run (P := (c.inputWires.foldl Visit.addNumber [] <+: ·))
      (fun ws w hws _ _ ↦ hws.trans (Visit.prefix_addNumber ws w)) _ _ hwaiting ?_
    rw [Visit.numbered_start]
  · rw [hv]
    refine Visit.numbered_run (P := fun ws ↦ ∀ w ∈ ws, w ∈ c.inputWires ∨
      (∃ g ∈ c.gates, w ∈ g.outs) ∧ w ∉ c.outputs) (fun ws w hws hg hw u hu ↦ ?_) _ _ hwaiting
      fun w hw ↦ ?_
    · rcases Visit.mem_addNumber.mp hu with hu | rfl
      · exact hws u hu
      · exact .inr ⟨hg, hw⟩
    · rw [Visit.numbered_start, Visit.mem_foldl_addNumber] at hw
      exact .inl (hw.resolve_left List.not_mem_nil)

theorem nodup_numbering (h : c.numbering order = .ok ws) : ws.Nodup := by
  obtain ⟨visited, rfl, hnodup, -⟩ := numbering_spec h
  exact Visit.nodup_foldl_addNumber hnodup

/-- A circuit that can be numbered reads only assigned wires. -/
theorem WellFormed.valid_of_numbering (hc : c.WellFormed) (h : c.numbering order = .ok ws) :
    c.Valid := by
  obtain ⟨visited, rfl, -, -, hvisited, hwires⟩ := numbering_spec h
  refine ⟨hc, fun g hg w hw ↦ ?_⟩
  have hmem := hwires w (mem_wires_of_gate hg (.inl hw))
  rcases Visit.mem_foldl_addNumber.mp hmem with hmem | hmem
  · exact mem_driven.mpr ((hvisited w hmem).imp_right And.left)
  · exact hc.outputs w hmem

/-- The numbered wires are those of the circuit. -/
theorem mem_numbering (h : c.numbering order = .ok ws) {w : Wire} : w ∈ ws ↔ w ∈ c.wires := by
  obtain ⟨visited, rfl, -, -, hvisited, hwires⟩ := numbering_spec h
  refine ⟨fun hw ↦ ?_, hwires w⟩
  rcases Visit.mem_foldl_addNumber.mp hw with hw | hw
  · rcases hvisited w hw with hw | ⟨⟨g, hg, hw⟩, -⟩
    · exact mem_wires_of_input hw
    · exact mem_wires_of_gate hg (.inr hw)
  · exact mem_wires_of_output hw

/-! ## New names -/

/-- There are no more distinct wires than numbers. -/
theorem length_le_wireLimit (h : ws.Nodup) : ws.length ≤ wireLimit := by
  have hids : (ws.map Wire.id).Nodup := h.map fun _ _ ↦ Wire.ext
  have hsub : (ws.map Wire.id).toFinset ⊆ Finset.range wireLimit := by
    intro n hn
    obtain ⟨w, -, rfl⟩ := List.mem_map.mp (List.mem_toFinset.mp hn)
    exact Finset.mem_range.mpr w.isLt
  have hcard := Finset.card_le_card hsub
  rwa [List.toFinset_card_of_nodup hids, List.length_map, Finset.card_range] at hcard

/-- A listed wire is renamed to its position. -/
theorem id_numberIn (h : ws.Nodup) {w : Wire} (hw : w ∈ ws) : (numberIn ws w).id = ws.idxOf w := by
  have hlt : ws.idxOf w < wireLimit :=
    (List.idxOf_lt_length_of_mem hw).trans_le (length_le_wireLimit h)
  have hidx : ws.idxOf? w = some (ws.idxOf w) := by
    obtain ⟨i, hi⟩ := Option.isSome_iff_exists.mp (List.isSome_idxOf?.mpr hw)
    rw [List.idxOf_eq_getD_idxOf?, hi, Option.getD_some]
  rw [numberIn, hidx, Option.bind_some, Wire.ofNat?, dif_pos hlt, Option.getD_some]

theorem injOn_numberIn (h : ws.Nodup) : Set.InjOn (numberIn ws) {w | w ∈ ws} := by
  intro v hv w hw he
  have hid := congrArg Wire.id he
  rw [id_numberIn h hv, id_numberIn h hw] at hid
  exact (List.idxOf_inj hv).mp hid

/-- The new names of the listed wires, in their order, are the numbers from zero on. -/
theorem map_numberIn (h : ws.Nodup) :
    ws.map (fun w ↦ (numberIn ws w).id) = List.range ws.length := by
  refine List.ext_getElem (by simp) fun i hi _ ↦ ?_
  rw [List.getElem_map, List.getElem_range, id_numberIn h (List.getElem_mem _)]
  exact h.idxOf_getElem i _

/-- A wire of the front gets a smaller number than a wire of the back. -/
theorem id_numberIn_lt {front back : List Wire} (h : (front ++ back).Nodup) {x y : Wire}
    (hx : x ∈ front) (hy : y ∈ back) :
    (numberIn (front ++ back) x).id < (numberIn (front ++ back) y).id := by
  have hfront : y ∉ front := fun hmem ↦ (List.nodup_append.mp h).2.2 y hmem y hy rfl
  rw [id_numberIn h (List.mem_append_left back hx), id_numberIn h (List.mem_append_right front hy),
    List.idxOf_append_of_mem hx, List.idxOf_append_of_notMem hfront]
  exact Nat.lt_add_right _ (List.idxOf_lt_length_of_mem hx)

/-- The new names of the back are the numbers from the length of the front on. -/
theorem map_numberIn_append {front back : List Wire} (h : (front ++ back).Nodup) :
    back.map (fun w ↦ (numberIn (front ++ back) w).id) = List.range' front.length back.length := by
  have hids := congrArg (List.drop front.length) (map_numberIn h)
  rw [← List.map_drop, List.drop_left] at hids
  rw [hids, List.range_eq_range', List.length_append, List.drop_range', Nat.add_sub_cancel_left]
  simp

/-! ## Renumbering -/

variable {d : Circuit}

theorem renumber_eq_ok :
    c.renumber order = .ok (d, ws) ↔ c.numbering order = .ok ws ∧ d = c.rename (numberIn ws) := by
  unfold renumber
  rw [bind_eq_ok]
  constructor
  · rintro ⟨vs, hvs, h⟩
    obtain ⟨rfl, rfl⟩ := Prod.mk.inj (Except.ok.inj h)
    exact ⟨hvs, rfl⟩
  · rintro ⟨h, rfl⟩
    exact ⟨ws, h, rfl⟩

/-- The new names keep the wires of the circuit apart. -/
theorem injOn_renumber (h : c.numbering order = .ok ws) :
    Set.InjOn (numberIn ws) {w | w ∈ c.wires} := by
  intro v hv w hw he
  exact injOn_numberIn (nodup_numbering h) ((mem_numbering h).mpr hv) ((mem_numbering h).mpr hw) he

theorem WellFormed.renumber (hc : c.WellFormed) (h : c.renumber order = .ok (d, ws)) :
    d.Valid := by
  obtain ⟨hnum, rfl⟩ := renumber_eq_ok.mp h
  exact (hc.valid_of_numbering hnum).rename (injOn_renumber hnum)

theorem Relates.renumber {ins outs : List Scalar} (hrel : c.Relates ins outs) (hc : c.WellFormed)
    (h : c.renumber order = .ok (d, ws)) : d.Relates ins outs := by
  obtain ⟨hnum, rfl⟩ := renumber_eq_ok.mp h
  obtain ⟨r, hr, rfl, rfl⟩ := hrel
  obtain ⟨q, hq, hqr⟩ := hr.exists_rename hc.gates (injOn_renumber hnum)
  refine ⟨q, hq, ?_, ?_⟩
  · rw [inputWires_rename, List.map_map]
    exact List.map_congr_left fun w hw ↦ hqr w (mem_wires_of_input hw)
  · change (c.outputs.map _).map q = _
    rw [List.map_map]
    exact List.map_congr_left fun w hw ↦ hqr w (mem_wires_of_output hw)

/-- The wires of a renumbered circuit are the numbers below their count. -/
theorem ids_wires_renumber (h : c.renumber order = .ok (d, ws)) :
    d.wires.map Wire.id = List.range d.numVariables := by
  obtain ⟨hnum, rfl⟩ := renumber_eq_ok.mp h
  have hids := map_numberIn (nodup_numbering hnum)
  have hasc : (ws.map (numberIn ws)).Pairwise (·.id < ·.id) := by
    rw [List.pairwise_map, ← List.pairwise_map (f := fun w ↦ (numberIn ws w).id), hids]
    exact List.pairwise_lt_range
  have hwires : (c.rename (numberIn ws)).wires = ws.map (numberIn ws) := by
    refine Wire.eq_of_pairwise (Wire.pairwise_ascending _) hasc fun w ↦ ?_
    rw [mem_wires_rename, List.mem_map]
    simp only [mem_numbering hnum]
  rw [numVariables, hwires, List.map_map, List.length_map]
  exact hids

/-- The primary inputs of a renumbered circuit are the first numbers. -/
theorem ids_inputWires_renumber (hc : c.WellFormed) (h : c.renumber order = .ok (d, ws)) :
    d.inputWires.map Wire.id = List.range c.inputs.length := by
  obtain ⟨hnum, rfl⟩ := renumber_eq_ok.mp h
  have hids := map_numberIn (nodup_numbering hnum)
  obtain ⟨visited, hws, -, hinputs, -⟩ := numbering_spec hnum
  have hnodup : c.inputWires.Nodup := (List.nodup_append.mp hc.nodup).1
  rw [Visit.foldl_addNumber_eq_append (by simpa using hnodup), List.nil_append] at hinputs
  obtain ⟨rest, hrest⟩ := hinputs.trans (Visit.prefix_foldl_addNumber c.outputs visited)
  rw [← hws] at hrest
  have htake := congrArg (List.take c.inputWires.length) hids
  have hle : c.inputWires.length ≤ ws.length := by rw [← hrest, List.length_append]; omega
  rw [← List.map_take, List.take_range, Nat.min_eq_left hle, ← hrest, List.take_left,
    hrest] at htake
  rw [inputWires_rename, List.map_map]
  refine htake.trans ?_
  rw [inputWires, List.length_map]

/-- Declared outputs that are distinct and no primary inputs get ascending numbers. -/
theorem ascending_outputs_renumber (h : c.renumber order = .ok (d, ws)) (hnodup : c.outputs.Nodup)
    (hinputs : ∀ w ∈ c.outputs, w ∉ c.inputWires) : d.outputs.Pairwise (·.id < ·.id) := by
  obtain ⟨hnum, rfl⟩ := renumber_eq_ok.mp h
  have hids := map_numberIn (nodup_numbering hnum)
  obtain ⟨visited, hws, hvisited, -, hmem, -⟩ := numbering_spec hnum
  have happend : ws = visited ++ c.outputs := by
    rw [hws, Visit.foldl_addNumber_eq_append]
    refine List.nodup_append.mpr ⟨hvisited, hnodup, fun v hv w hw he ↦ ?_⟩
    subst he
    rcases hmem v hv with hv | ⟨-, hv⟩
    · exact hinputs v hw hv
    · exact hv hw
  have hasc : ws.Pairwise fun v w ↦ (numberIn ws v).id < (numberIn ws w).id := by
    rw [← List.pairwise_map (f := fun w ↦ (numberIn ws w).id), hids]
    exact List.pairwise_lt_range
  have hsub : c.outputs.Sublist ws := happend ▸ List.sublist_append_right visited c.outputs
  exact List.pairwise_map.mpr (hasc.sublist hsub)

end Circuit

end Quadratize
