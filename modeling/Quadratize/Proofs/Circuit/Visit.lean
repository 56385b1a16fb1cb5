import Quadratize.Proofs.Circuit.Acyclic
import Quadratize.Proofs.Circuit.Numbering

/-!
# Which gates a visit reaches

A visit that waits for all inputs keeps, for each gate, the number of its inputs that it has not
found.  A gate comes into the queue when that number drops to zero, so the gates are visited in
evaluation order, and a gate that is never visited waits for a wire that is never found.  Hence the
wires of a valid circuit can be numbered exactly if its gates are acyclic.
-/

namespace Quadratize

namespace Gate

variable {gates : List Gate} {w : Wire} {p : Nat}

theorem mem_consumers : p ∈ consumers gates w ↔ ∃ g, gates[p]? = some g ∧ w ∈ g.ins := by
  simp only [consumers, List.mem_map, List.mem_filter, Prod.exists, List.mem_zipIdx_iff_getElem?,
    decide_eq_true_eq]
  constructor
  · rintro ⟨g, _, ⟨hg, hw⟩, rfl⟩
    exact ⟨g, hg, hw⟩
  · rintro ⟨g, hg, hw⟩
    exact ⟨g, p, ⟨hg, hw⟩, rfl⟩

theorem nodup_consumers (gates : List Gate) (w : Wire) : (consumers gates w).Nodup := by
  have hsub : (consumers gates w).Sublist (gates.zipIdx.map Prod.snd) := List.filter_sublist.map _
  rw [List.zipIdx_map_snd] at hsub
  exact (List.nodup_range' ..).sublist hsub

/-- The inputs of a gate that are not found. -/
def missing (found : List Wire) (g : Gate) : Finset Wire :=
  g.ins.toFinset \ found.toFinset

theorem missing_eq_empty {found : List Wire} {g : Gate} :
    g.missing found = ∅ ↔ ∀ w ∈ g.ins, w ∈ found := by
  simp [missing, Finset.sdiff_eq_empty_iff_subset, Finset.subset_iff]

/-- A wire that is found is no longer missing. -/
theorem missing_concat (found : List Wire) (w : Wire) (g : Gate) :
    g.missing (found ++ [w]) = (g.missing found).erase w := by
  ext v
  simp only [missing, Finset.mem_sdiff, List.mem_toFinset, List.mem_append, List.mem_singleton,
    Finset.mem_erase]
  tauto

theorem InOrder.concat {reads : Gate → List Wire} {ready : List Wire} {g : Gate}
    (h : InOrder reads ready gates) (hg : ∀ w ∈ reads g, w ∈ ready ++ gates.flatMap outs) :
    InOrder reads ready (gates ++ [g]) := by
  induction gates generalizing ready with
  | nil => exact ⟨by simpa using hg, trivial⟩
  | cons d rest ih =>
    refine ⟨h.1, ih h.2 ?_⟩
    rwa [List.append_assoc, ← List.flatMap_cons]

end Gate

namespace Visit

open Gate

variable {c : Circuit} {waiting : List (Gate × Nat)} {found : List Wire} {v : Visit} {w : Wire}

/-! ## Telling the readers of a wire -/

theorem getD_set (l : List Nat) (p q a : Nat) (ha : l.length ≤ p → a = 0) :
    (l.set p a).getD q 0 = if q = p then a else l.getD q 0 := by
  rw [List.getD_eq_getElem?_getD, List.getD_eq_getElem?_getD, List.getElem?_set]
  by_cases hq : q = p
  · subst hq
    rw [if_pos rfl, if_pos rfl]
    split_ifs with hlt
    · rfl
    · exact (ha (Nat.le_of_not_lt hlt)).symm
  · rw [if_neg (Ne.symm hq), if_neg hq]

theorem foldl_notify {ps : List Nat} (hps : ps.Nodup) (v : Visit) (q : Nat) :
    (ps.foldl (notify .allInputsReady) v).pending.getD q 0 =
        (if q ∈ ps then v.pending.getD q 0 - 1 else v.pending.getD q 0) ∧
      (q ∈ (ps.foldl (notify .allInputsReady) v).queue ↔
        q ∈ v.queue ∨ q ∈ ps ∧ v.pending.getD q 0 ≤ 1) := by
  induction ps generalizing v with
  | nil => simp
  | cons p ps ih =>
    obtain ⟨hp, hps⟩ := List.nodup_cons.mp hps
    have hpending (q : Nat) : (v.notify .allInputsReady p).pending.getD q 0 =
        if q = p then v.pending.getD p 0 - 1 else v.pending.getD q 0 := by
      refine getD_set _ _ _ _ fun hle ↦ ?_
      rw [List.getD_eq_getElem?_getD, List.getElem?_eq_none hle]
      rfl
    have hqueue : q ∈ (v.notify .allInputsReady p).queue ↔
        q ∈ v.queue ∨ q = p ∧ v.pending.getD p 0 ≤ 1 := by
      simp only [notify]
      split_ifs with hleft
      · rw [List.mem_append, List.mem_singleton]
        exact or_congr_right (iff_self_and.mpr fun _ ↦ by omega)
      · exact ⟨.inl, fun h ↦ h.resolve_right fun ⟨_, hle⟩ ↦ hleft (by omega)⟩
    obtain ⟨ihpending, ihqueue⟩ := ih hps (v.notify .allInputsReady p)
    rw [List.foldl_cons, ihpending, ihqueue, hpending, hqueue]
    by_cases hq : q = p
    · subst hq
      simp [hp]
    · simp [hq]

/-! ## What a visit knows -/

/-- The counts are right for the wires that have been found, and the gates in the queue are those
that wait for nothing. -/
structure Informed (c : Circuit) (waiting : List (Gate × Nat)) (found : List Wire) (v : Visit) :
    Prop where
  pending : ∀ p g, c.gates[p]? = some g → v.pending.getD p 0 = (g.missing found).card
  queued : ∀ p ∈ v.queue, ∀ g, c.gates[p]? = some g → g.missing found = ∅
  ready : ∀ x ∈ waiting, x.1.missing found = ∅ → x.2 ∈ v.queue
  numbered : ∀ w ∈ found, w ∈ v.numbered ∨ w ∈ c.outputs

theorem Informed.discover (h : Informed c waiting found v)
    (hwaiting : ∀ x ∈ waiting, c.gates[x.2]? = some x.1) (hw : w ∉ found)
    (hnumber : w ∈ v.numbered ∨ w ∈ c.outputs) :
    Informed c waiting (found ++ [w]) (v.discover .allInputsReady c.gates w) := by
  have hfold := foldl_notify (nodup_consumers c.gates w) v
  have hmissing {g : Gate} : w ∈ g.missing found ↔ w ∈ g.ins := by simp [Gate.missing, hw]
  -- A gate whose last missing input is the new wire is ready.
  have hlast {p : Nat} {g : Gate} (hg : c.gates[p]? = some g) (hwg : w ∈ g.ins) :
      v.pending.getD p 0 ≤ 1 ↔ g.missing (found ++ [w]) = ∅ := by
    rw [h.pending p g hg, missing_concat, ← Finset.card_eq_zero,
      Finset.card_erase_of_mem (hmissing.mpr hwg)]
    omega
  refine ⟨fun p g hg ↦ ?_, fun p hp g hg ↦ ?_, fun x hx hready ↦ ?_, fun u hu ↦ ?_⟩
  · rw [Visit.discover, (hfold p).1, missing_concat, h.pending p g hg]
    split_ifs with hcons
    · obtain ⟨d, hd, hwd⟩ := mem_consumers.mp hcons
      obtain rfl : g = d := Option.some.inj (hg.symm.trans hd)
      exact (Finset.card_erase_of_mem (hmissing.mpr hwd)).symm
    · have hwg : w ∉ g.missing found := fun hmem ↦
        hcons (mem_consumers.mpr ⟨g, hg, hmissing.mp hmem⟩)
      rw [Finset.erase_eq_of_notMem hwg]
  · rcases ((hfold p).2).mp hp with hp | ⟨hcons, hle⟩
    · rw [missing_concat, h.queued p hp g hg, Finset.erase_empty]
    · obtain ⟨d, hd, hwd⟩ := mem_consumers.mp hcons
      obtain rfl : g = d := Option.some.inj (hg.symm.trans hd)
      exact (hlast hg hwd).mp hle
  · refine ((hfold x.2).2).mpr ?_
    by_cases hwx : w ∈ x.1.ins
    · have hcons := mem_consumers.mpr ⟨x.1, hwaiting x hx, hwx⟩
      exact .inr ⟨hcons, (hlast (hwaiting x hx) hwx).mpr hready⟩
    · rw [missing_concat, Finset.erase_eq_of_notMem fun hmem ↦ hwx (hmissing.mp hmem)] at hready
      exact .inl (h.ready x hx hready)
  · rw [numbered_discover]
    rcases List.mem_append.mp hu with hu | hu
    · exact h.numbered u hu
    · exact List.mem_singleton.mp hu ▸ hnumber

/-- The outputs of a visited gate are found. -/
theorem Informed.foldl_reach {ws : List Wire} (h : Informed c waiting found v)
    (hwaiting : ∀ x ∈ waiting, c.gates[x.2]? = some x.1) (hnodup : (found ++ ws).Nodup) :
    Informed c waiting (found ++ ws) (ws.foldl (reach .allInputsReady c) v) := by
  induction ws generalizing found v with
  | nil => simpa using h
  | cons w ws ih =>
    have hw : w ∉ found := fun hmem ↦
      (List.nodup_append.mp hnodup).2.2 w hmem w List.mem_cons_self rfl
    have hstep : Informed c waiting (found ++ [w]) (reach .allInputsReady c v w) := by
      unfold reach
      split_ifs with hout
      · exact h.discover hwaiting hw (.inr hout)
      · have hnumber : Informed c waiting found (v.number w) :=
          ⟨h.pending, h.queued, h.ready, fun u hu ↦
            (h.numbered u hu).imp_left fun hmem ↦ mem_addNumber.mpr (.inl hmem)⟩
        exact hnumber.discover hwaiting hw (.inl (mem_addNumber.mpr (.inr rfl)))
    rw [List.foldl_cons, List.append_cons]
    exact ih hstep (by simpa using hnodup)

/-- At the start the primary inputs are found. -/
theorem informed_start (hnodup : c.inputWires.Nodup) :
    Informed c c.gates.zipIdx c.inputWires (start .allInputsReady c) := by
  have hmissing (g : Gate) : g.missing [] = g.ins.toFinset := by simp [Gate.missing]
  have hwaiting : ∀ x ∈ c.gates.zipIdx, c.gates[x.2]? = some x.1 := fun x hx ↦
    List.mem_zipIdx_iff_getElem?.mp hx
  have hfold (ws : List Wire) (found : List Wire) (v : Visit)
      (h : Informed c c.gates.zipIdx found v) (hws : (found ++ ws).Nodup)
      (hnumber : ∀ w ∈ ws, w ∈ v.numbered) : Informed c c.gates.zipIdx (found ++ ws)
        (ws.foldl (fun v w ↦ v.discover .allInputsReady c.gates w) v) := by
    induction ws generalizing found v with
    | nil => simpa using h
    | cons w ws ih =>
      obtain ⟨hw, hrest⟩ := List.forall_mem_cons.mp hnumber
      have hnew : w ∉ found := fun hmem ↦
        (List.nodup_append.mp hws).2.2 w hmem w List.mem_cons_self rfl
      rw [List.foldl_cons, List.append_cons]
      refine ih _ _ (h.discover hwaiting hnew (.inl hw)) (by simpa using hws) ?_
      simpa only [numbered_discover] using hrest
  refine hfold c.inputWires [] _ ⟨fun p g hg ↦ ?_, fun p hp g hg ↦ ?_, fun x hx hready ↦ ?_, nofun⟩
    hnodup fun w hw ↦ mem_foldl_addNumber.mpr (.inr hw)
  · rw [hmissing, ← Wire.length_eraseDups, List.getD_eq_getElem?_getD, List.getElem?_map, hg]
    rfl
  · obtain ⟨⟨d, q⟩, hmem, rfl⟩ := List.mem_map.mp hp
    obtain ⟨hmem, hempty⟩ := List.mem_filter.mp hmem
    obtain rfl : g = d := Option.some.inj (hg.symm.trans (hwaiting _ hmem))
    rw [hmissing, List.isEmpty_iff.mp hempty, List.toFinset_nil]
  · rw [hmissing, List.toFinset_eq_empty_iff] at hready
    exact List.mem_map.mpr ⟨x, List.mem_filter.mpr ⟨hx, List.isEmpty_iff.mpr hready⟩, rfl⟩

/-! ## The gates in the queue -/

theorem next?_eq_none {queue : List Nat} (h : next? waiting queue = none) :
    ∀ x ∈ waiting, x.2 ∉ queue := by
  induction queue with
  | nil => exact fun _ _ ↦ nofun
  | cons p queue ih =>
    unfold next? at h
    split at h
    · cases h
    · rename_i hfind
      intro x hx hmem
      rcases List.mem_cons.mp hmem with he | hmem
      · exact List.find?_eq_none.mp hfind x hx (beq_iff_eq.mpr he)
      · exact ih h x hx hmem

/-- What stands in the queue in front of the next gate has been visited. -/
theorem next?_eq_some {queue rest : List Nat} {g : Gate × Nat}
    (h : next? waiting queue = some (g, rest)) :
    g.2 ∈ queue ∧ rest ⊆ queue ∧ ∀ q ∈ queue, q ∈ rest ∨ q = g.2 ∨ ∀ x ∈ waiting, x.2 ≠ q := by
  induction queue with
  | nil => cases h
  | cons p queue ih =>
    unfold next? at h
    split at h
    · rename_i d hfind
      obtain ⟨rfl, rfl⟩ := Prod.mk.inj (Option.some.inj h)
      have hp : d.2 = p := by simpa using List.find?_some hfind
      refine ⟨hp ▸ List.mem_cons_self, List.subset_cons_self _ _, List.forall_mem_cons.mpr ⟨?_, ?_⟩⟩
      · exact .inr (.inl hp.symm)
      · exact fun q hq ↦ .inl hq
    · rename_i hfind
      obtain ⟨hmem, hrest, hqueue⟩ := ih h
      refine ⟨List.mem_cons_of_mem _ hmem, List.subset_cons_of_subset _ hrest,
        List.forall_mem_cons.mpr ⟨?_, hqueue⟩⟩
      exact .inr (.inr fun x hx he ↦ List.find?_eq_none.mp hfind x hx (beq_iff_eq.mpr he))

/-! ## A run -/

/-- The gates are divided into those that have been visited, in evaluation order, and those that
wait; the primary inputs and the outputs of visited gates are found, and but for the declared
outputs of gates they are numbered in this order. -/
structure Running (c : Circuit) (waiting : List (Gate × Nat)) (visited : List Gate) (v : Visit) :
    Prop where
  gates : (visited ++ waiting.map Prod.fst).Perm c.gates
  positions : (waiting.map Prod.snd).Nodup
  getElem : ∀ x ∈ waiting, c.gates[x.2]? = some x.1
  order : InOrder ins c.inputWires visited
  numbered : v.numbered = c.inputWires ++ (visited.flatMap outs).filter (· ∉ c.outputs)
  informed : Informed c waiting (c.inputWires ++ visited.flatMap outs) v

theorem running_start (hnodup : c.inputWires.Nodup) :
    Running c c.gates.zipIdx [] (start .allInputsReady c) where
  gates := by rw [List.nil_append, List.zipIdx_map_fst]
  positions := by
    rw [List.zipIdx_map_snd]
    exact List.nodup_range' ..
  getElem := fun _ hx ↦ List.mem_zipIdx_iff_getElem?.mp hx
  order := trivial
  numbered := by
    rw [numbered_start, foldl_addNumber_eq_append (by simpa using hnodup)]
    simp
  informed := by simpa using informed_start hnodup

theorem perm_others {g : Gate} {p : Nat} (hg : (g, p) ∈ waiting)
    (hnodup : (waiting.map Prod.snd).Nodup) :
    ((g, p) :: others p waiting).Perm waiting := by
  obtain ⟨front, back, rfl⟩ := List.append_of_mem hg
  rw [List.map_append, List.map_cons, List.nodup_middle, List.nodup_cons,
    ← List.map_append] at hnodup
  have hkeep : others p (front ++ back) = front ++ back :=
    List.filter_eq_self.mpr fun x hx ↦ bne_iff_ne.mpr fun he ↦
      hnodup.1 (List.mem_map.mpr ⟨x, hx, he⟩)
  have hothers : others p (front ++ (g, p) :: back) = front ++ back := by
    rw [← hkeep]
    simp [others]
  rw [hothers]
  exact List.perm_middle.symm

theorem Running.step {visited : List Gate} {g : Gate} {p : Nat} {queue : List Nat}
    (h : Running c waiting visited v) (hc : c.driven.Nodup)
    (hnext : next? waiting v.queue = some ((g, p), queue)) :
    Running c (others p waiting) (visited ++ [g])
      (g.outs.foldl (reach .allInputsReady c) { v with queue := queue }) := by
  have hmem := mem_of_next? hnext
  obtain ⟨hp, hrest, hqueue⟩ := next?_eq_some hnext
  have hothers := perm_others hmem h.positions
  have hgates : (visited ++ [g] ++ (others p waiting).map Prod.fst).Perm c.gates := by
    rw [List.append_assoc, List.singleton_append]
    exact ((hothers.map Prod.fst).append_left visited).trans h.gates
  have hsub {x : Gate × Nat} (hx : x ∈ others p waiting) : x ∈ waiting ∧ x.2 ≠ p := by
    simpa [others] using hx
  have hready : ∀ w ∈ g.ins, w ∈ c.inputWires ++ visited.flatMap outs :=
    missing_eq_empty.mp (h.informed.queued p hp g (h.getElem _ hmem))
  have hnodup : (c.inputWires ++ visited.flatMap outs ++ g.outs).Nodup := by
    have hperm := (hgates.flatMap_right outs).append_left c.inputWires
    have hall := hperm.nodup_iff.mpr hc
    rw [List.flatMap_append, List.flatMap_append, ← List.append_assoc, ← List.append_assoc,
      List.flatMap_singleton] at hall
    exact (List.nodup_append.mp hall).1
  refine ⟨hgates, ?_, fun x hx ↦ h.getElem x (hsub hx).1, h.order.concat hready, ?_, ?_⟩
  · exact (List.nodup_cons.mp ((hothers.map Prod.snd).nodup_iff.mpr h.positions)).2
  · have hnumbered : (({ v with queue := queue } : Visit).numbered ++ g.outs).Nodup := by
      change (v.numbered ++ g.outs).Nodup
      rw [h.numbered]
      exact hnodup.sublist ((List.filter_sublist.append_left _).append_right _)
    refine (numbered_foldl_reach hnumbered).trans ?_
    change v.numbered ++ _ = _
    rw [h.numbered, List.append_assoc, List.flatMap_append, List.flatMap_singleton,
      List.filter_append]
  · have hdone : Informed c (others p waiting) (c.inputWires ++ visited.flatMap outs)
        { v with queue := queue } := by
      refine ⟨h.informed.pending, fun q hq ↦ h.informed.queued q (hrest hq), fun x hx hempty ↦ ?_,
        h.informed.numbered⟩
      rcases hqueue x.2 (h.informed.ready x (hsub hx).1 hempty) with hx' | hx' | hx'
      · exact hx'
      · exact absurd hx' (hsub hx).2
      · exact absurd rfl (hx' x (hsub hx).1)
    have hreach := hdone.foldl_reach (fun x hx ↦ h.getElem x (hsub hx).1) hnodup
    rwa [List.flatMap_append, List.flatMap_singleton, ← List.append_assoc]

/-- What is left of the gates when the queue is empty: each of them waits for a wire. -/
theorem run_spec {visited : List Gate} (h : Running c waiting visited v) (hc : c.driven.Nodup) :
    ∃ visited', Running c (run .allInputsReady c waiting v).1 visited'
        (run .allInputsReady c waiting v).2 ∧
      ∀ x ∈ (run .allInputsReady c waiting v).1,
        ∃ w ∈ x.1.ins, w ∉ c.inputWires ++ visited'.flatMap outs := by
  fun_induction run .allInputsReady c waiting v generalizing visited with
  | case1 waiting v hnext =>
    have hwait : ∀ x ∈ waiting, x.1.missing (c.inputWires ++ visited.flatMap outs) ≠ ∅ :=
      fun x hx hempty ↦ next?_eq_none hnext x hx (h.informed.ready x hx hempty)
    refine ⟨visited, ⟨h.gates, h.positions, h.getElem, h.order, h.numbered, ?_⟩, fun x hx ↦ ?_⟩
    · exact ⟨h.informed.pending, fun _ hp ↦ absurd hp List.not_mem_nil,
        fun x hx hempty ↦ absurd hempty (hwait x hx), h.informed.numbered⟩
    · have hmissing := hwait x hx
      rw [Ne, missing_eq_empty] at hmissing
      push Not at hmissing
      exact hmissing
  | case2 waiting v g p queue hnext ih => exact ih (h.step hc hnext)

end Visit

namespace Circuit

variable {c : Circuit}

/-- Where gates are acyclic, no gate waits for a wire that was not found. -/
theorem Valid.eq_nil_of_running {left : List (Gate × Nat)} {visited : List Gate} {v : Visit}
    (hc : c.Valid) (hacyclic : c.Acyclic) (hrun : Visit.Running c left visited v)
    (hwait : ∀ x ∈ left, ∃ w ∈ x.1.ins, w ∉ c.inputWires ++ visited.flatMap Gate.outs) :
    left = [] := by
  by_contra hne
  have hsub : left.map Prod.fst ⊆ c.gates := fun g hg ↦
    hrun.gates.mem_iff.mp (List.mem_append_right _ hg)
  -- A gate that was not visited reads found wires and outputs of such gates.
  have hreads : ∀ g ∈ left.map Prod.fst, ∀ w ∈ g.ins,
      w ∈ c.inputWires ++ visited.flatMap Gate.outs ∨ ∃ d ∈ left.map Prod.fst, w ∈ d.outs := by
    intro g hg w hw
    rw [List.mem_append, List.mem_flatMap, or_assoc]
    refine (mem_driven.mp (hc.reads g (hsub hg) w hw)).imp_right fun ⟨d, hd, hwd⟩ ↦ ?_
    have hmem := List.mem_append.mp (hrun.gates.mem_iff.mpr hd)
    exact hmem.imp (fun hd ↦ ⟨d, hd, hwd⟩) fun hd ↦ ⟨d, hd, hwd⟩
  obtain ⟨g, hg, hready⟩ := (hacyclic.of_subset hsub).exists_ready (by simpa using hne) hreads
  obtain ⟨x, hx, rfl⟩ := List.mem_map.mp hg
  obtain ⟨w, hw, hnot⟩ := hwait x hx
  exact hnot (hready w hw)

/-- The wires of a valid circuit can be numbered, waiting for all inputs, exactly if the gates are
acyclic. -/
theorem Valid.exists_numbering_iff (hc : c.Valid) :
    (∃ ws, c.numbering .allInputsReady = .ok ws) ↔ c.Acyclic := by
  obtain ⟨visited, hrun, hwait⟩ :=
    Visit.run_spec (Visit.running_start (List.nodup_append.mp hc.nodup).1) hc.nodup
  generalize hfinal : Visit.run .allInputsReady c c.gates.zipIdx (Visit.start .allInputsReady c) =
    final at hrun hwait
  obtain ⟨left, v⟩ := final
  constructor
  · rintro ⟨ws, hws⟩
    obtain ⟨v', hend, -⟩ := numbering_eq_ok.mp hws
    obtain ⟨rfl, rfl⟩ := Prod.mk.inj (hfinal.symm.trans hend)
    exact Orderable.acyclic ⟨visited, by simpa using hrun.gates, hrun.order⟩ hc.nodup
  · intro hacyclic
    obtain rfl := hc.eq_nil_of_running hacyclic hrun hwait
    refine ⟨_, numbering_eq_ok.mpr ⟨v, hfinal, rfl, fun w hw ↦ ?_⟩⟩
    have hfound : w ∈ c.inputWires ++ visited.flatMap Gate.outs := by
      rw [List.mem_append, List.mem_flatMap]
      refine (mem_driven.mp (hc.mem_wires.mp hw)).imp_right fun ⟨g, hg, hwg⟩ ↦ ⟨g, ?_, hwg⟩
      simpa using hrun.gates.mem_iff.mpr hg
    exact Visit.mem_foldl_addNumber.mpr (hrun.informed.numbered w hfound)

/-- The first numbers go to the primary inputs and, in evaluation order, to the undeclared outputs
of gates. -/
theorem Valid.prefix_numbering {ws : List Wire} (hc : c.Valid)
    (h : c.numbering .allInputsReady = .ok ws) :
    ∃ visited, visited.Perm c.gates ∧ Gate.InOrder Gate.ins c.inputWires visited ∧
      c.inputWires ++ (visited.flatMap Gate.outs).filter (· ∉ c.outputs) <+: ws := by
  obtain ⟨visited, hrun, -⟩ :=
    Visit.run_spec (Visit.running_start (List.nodup_append.mp hc.nodup).1) hc.nodup
  obtain ⟨v, hend, rfl, -⟩ := numbering_eq_ok.mp h
  rw [hend] at hrun
  refine ⟨visited, by simpa using hrun.gates, hrun.order, ?_⟩
  rw [← hrun.numbered]
  exact Visit.prefix_foldl_addNumber c.outputs v.numbered

theorem Valid.exists_renumber_iff (hc : c.Valid) :
    (∃ d ws, c.renumber .allInputsReady = .ok (d, ws)) ↔ c.Acyclic := by
  rw [← hc.exists_numbering_iff]
  constructor
  · rintro ⟨d, ws, h⟩
    exact ⟨ws, (renumber_eq_ok.mp h).1⟩
  · rintro ⟨ws, h⟩
    exact ⟨_, ws, renumber_eq_ok.mpr ⟨h, rfl⟩⟩

end Circuit

end Quadratize
