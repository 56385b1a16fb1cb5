import Mathlib.Data.List.Perm.Basic
import Quadratize.Circuit.DeadGates
import Quadratize.Proofs.Circuit.Acyclic

/-!
# Dead gates

During a sweep the uses that are left are exactly those by declared outputs and by gates that have
not been removed.  So a removed gate drives nothing that is still used, and when a sweep removes
nothing, every gate drives a wire that is used.  A gate on a cycle is never removed.
-/

namespace Quadratize.Circuit

theorem endUses_perm {uses ws rest : List Wire} (h : uses.Perm (ws ++ rest)) :
    (endUses uses ws).Perm rest := by
  induction ws generalizing uses with
  | nil => exact h
  | cons w ws ih =>
    have herase := h.erase w
    rw [List.cons_append, List.erase_cons_head] at herase
    exact ih herase

/-- What a sweep keeps and which uses are left, for uses that consist of those by the gates and of
others: the uses by removed gates are gone, and every wire that is still used is still driven. -/
theorem sweepDead_spec {others uses : List Wire} {gates : List Gate}
    (h : uses.Perm (others ++ gates.flatMap Gate.ins)) :
    (sweepDead uses gates).1.Sublist gates ∧
      (sweepDead uses gates).2.Perm (others ++ (sweepDead uses gates).1.flatMap Gate.ins) ∧
      ∀ w ∈ (sweepDead uses gates).2, w ∈ gates.flatMap Gate.outs →
        w ∈ (sweepDead uses gates).1.flatMap Gate.outs := by
  induction gates generalizing others with
  | nil => exact ⟨.slnil, h, fun w _ hw ↦ hw⟩
  | cons g rest ih =>
    -- The uses by `g` count among the others while the gates behind it are swept.
    have hrest : uses.Perm (others ++ g.ins ++ rest.flatMap Gate.ins) := by simpa using h
    obtain ⟨hsub, hperm, hdriven⟩ := ih hrest
    rw [sweepDead]
    dsimp only
    split_ifs with hused
    · refine ⟨hsub.cons_cons g, by simpa using hperm, fun w hw hmem ↦ ?_⟩
      rw [List.flatMap_cons, List.mem_append] at hmem ⊢
      exact hmem.imp_right (hdriven w hw)
    · have hleft : (endUses (sweepDead uses rest).2 g.ins).Perm
          (others ++ (sweepDead uses rest).1.flatMap Gate.ins) := by
        refine endUses_perm (hperm.trans ?_)
        rw [List.append_assoc]
        exact List.perm_append_comm_assoc _ _ _
      refine ⟨hsub.cons g, hleft, fun w hw hmem ↦ ?_⟩
      have hbefore : w ∈ (sweepDead uses rest).2 := by
        rw [hperm.mem_iff, List.append_assoc, List.mem_append, List.mem_append]
        rcases List.mem_append.mp (hleft.mem_iff.mp hw) with hw | hw
        · exact .inl hw
        · exact .inr (.inr hw)
      rw [List.flatMap_cons, List.mem_append] at hmem
      rcases hmem with hmem | hmem
      · exact absurd (List.any_eq_true.mpr ⟨w, hmem, by simpa using hbefore⟩) hused
      · exact hdriven w hbefore hmem

/-- A sweep breaks no cycle, not even one through gates `before` that are not swept. -/
theorem acyclic_of_sweepDead {others uses : List Wire} {before gates : List Gate}
    (h : uses.Perm (others ++ gates.flatMap Gate.ins))
    (hbefore : ∀ g ∈ before, ∀ w ∈ g.ins, w ∈ others)
    (hkept : Gate.Acyclic (before ++ (sweepDead uses gates).1)) :
    Gate.Acyclic (before ++ gates) := by
  induction gates generalizing others before with
  | nil => exact hkept
  | cons g rest ih =>
    have hrest : uses.Perm (others ++ g.ins ++ rest.flatMap Gate.ins) := by simpa using h
    obtain ⟨-, hperm, -⟩ := sweepDead_spec hrest
    rw [sweepDead] at hkept
    dsimp only at hkept
    rw [← List.singleton_append, ← List.append_assoc]
    refine ih hrest (fun d hd w hw ↦ ?_) ?_
    · rcases List.mem_append.mp hd with hd | hd
      · exact List.mem_append_left _ (hbefore d hd w hw)
      · exact List.mem_append_right _ (List.mem_singleton.mp hd ▸ hw)
    · split_ifs at hkept with hused
      · rwa [List.append_assoc, List.singleton_append]
      · -- Nothing reads what the removed gate drives.
        refine (hkept.cons (g := g) fun w hw d hd hwd ↦ hused ?_).of_subset fun d hd ↦ ?_
        · refine List.any_eq_true.mpr ⟨w, hw, decide_eq_true (hperm.mem_iff.mpr ?_)⟩
          simp only [List.mem_cons, List.mem_append, List.mem_flatMap] at hd ⊢
          rcases hd with rfl | hd | hd
          · exact .inl (.inr hwd)
          · exact .inl (.inl (hbefore d hd w hwd))
          · exact .inr ⟨d, hd, hwd⟩
        · simpa [or_left_comm] using hd

/-- A sweep that removes nothing finds every gate used. -/
theorem used_of_length_sweepDead {uses : List Wire} {gates : List Gate}
    (h : gates.length ≤ (sweepDead uses gates).1.length) :
    sweepDead uses gates = (gates, uses) ∧ ∀ g ∈ gates, ∃ w ∈ g.outs, w ∈ uses := by
  have hlength (uses : List Wire) (gates : List Gate) :
      (sweepDead uses gates).1.length ≤ gates.length := by
    induction gates with
    | nil => exact Nat.le_refl _
    | cons g rest ih =>
      rw [sweepDead]
      dsimp only
      split_ifs
      · exact Nat.succ_le_succ ih
      · exact Nat.le_succ_of_le ih
  induction gates with
  | nil => exact ⟨rfl, nofun⟩
  | cons g rest ih =>
    rw [sweepDead] at h ⊢
    dsimp only at h ⊢
    split_ifs at h ⊢ with hused
    · obtain ⟨heq, hrest⟩ := ih (Nat.le_of_succ_le_succ h)
      rw [heq] at hused ⊢
      refine ⟨rfl, List.forall_mem_cons.mpr ⟨?_, hrest⟩⟩
      simpa using hused
    · exact absurd (h.trans (hlength uses rest)) (Nat.not_succ_le_self _)

theorem fst_liveGates (outputs : List Wire) (gates : List Gate) :
    (liveGates outputs gates).1 =
      if (sweepDead (allUses outputs gates) gates).1.length < gates.length then
        (liveGates outputs (sweepDead (allUses outputs gates) gates).1).1
      else gates := by
  rw [liveGates]
  dsimp only
  split_ifs <;> rfl

/-- The gates that stay: they keep their order, drive every wire that is still used, and each of
them drives a wire that is used. -/
theorem liveGates_spec (outputs : List Wire) (gates : List Gate) :
    (liveGates outputs gates).1.Sublist gates ∧
      (∀ w ∈ allUses outputs (liveGates outputs gates).1, w ∈ gates.flatMap Gate.outs →
        w ∈ (liveGates outputs gates).1.flatMap Gate.outs) ∧
      ∀ g ∈ (liveGates outputs gates).1, ∃ w ∈ g.outs,
        w ∈ allUses outputs (liveGates outputs gates).1 := by
  induction hn : gates.length using Nat.strongRecOn generalizing gates with
  | ind n ih =>
    obtain ⟨hsub, hperm, hdriven⟩ := sweepDead_spec (List.Perm.refl (allUses outputs gates))
    rw [fst_liveGates]
    split_ifs with hlt
    · obtain ⟨hsub', hdriven', hlive⟩ := ih _ (hn ▸ hlt) _ rfl
      refine ⟨hsub'.trans hsub, fun w hw hmem ↦ hdriven' w hw (hdriven w ?_ hmem), hlive⟩
      rw [hperm.mem_iff, List.mem_append]
      rcases List.mem_append.mp hw with hw | hw
      · exact .inl hw
      · exact .inr ((hsub'.flatMap _).subset hw)
    · exact ⟨.refl _, fun w _ hw ↦ hw, (used_of_length_sweepDead (Nat.le_of_not_lt hlt)).2⟩

theorem acyclic_of_liveGates {outputs : List Wire} {gates : List Gate}
    (h : Gate.Acyclic (liveGates outputs gates).1) : Gate.Acyclic gates := by
  induction hn : gates.length using Nat.strongRecOn generalizing gates with
  | ind n ih =>
    rw [fst_liveGates] at h
    split_ifs at h with hlt
    · have hkept := ih _ (hn ▸ hlt) h rfl
      have hnone : ∀ g ∈ ([] : List Gate), ∀ w ∈ g.ins, w ∈ outputs := nofun
      exact acyclic_of_sweepDead (.refl (allUses outputs gates)) hnone hkept
    · exact h

/-! ## Circuits without dead gates -/

variable {c : Circuit}

theorem gates_removeDeadGates_sublist (c : Circuit) : c.removeDeadGates.1.gates.Sublist c.gates :=
  (liveGates_spec c.outputs c.gates).1

/-- Every gate that stays drives a declared output or a wire that a gate reads. -/
theorem live_removeDeadGates {g : Gate} (hg : g ∈ c.removeDeadGates.1.gates) :
    ∃ w ∈ g.outs, w ∈ c.outputs ∨ ∃ h ∈ c.removeDeadGates.1.gates, w ∈ h.ins := by
  obtain ⟨w, hw, huse⟩ := (liveGates_spec c.outputs c.gates).2.2 g hg
  rw [allUses, List.mem_append, List.mem_flatMap] at huse
  exact ⟨w, hw, huse⟩

/-- A wire that is used and was driven is still driven. -/
theorem driven_removeDeadGates {w : Wire} (hw : w ∈ c.driven)
    (huse : w ∈ c.outputs ∨ ∃ g ∈ c.removeDeadGates.1.gates, w ∈ g.ins) :
    w ∈ c.removeDeadGates.1.driven := by
  rw [driven, List.mem_append] at hw ⊢
  refine hw.imp_right ((liveGates_spec c.outputs c.gates).2.1 w ?_)
  rwa [allUses, List.mem_append, List.mem_flatMap]

theorem WellFormed.removeDeadGates (h : c.WellFormed) : c.removeDeadGates.1.WellFormed := by
  have hsub := gates_removeDeadGates_sublist c
  refine ⟨fun g hg ↦ h.gates g (hsub.subset hg), ?_, fun w hw ↦ ?_⟩
  · exact h.nodup.sublist ((List.Sublist.refl _).append (hsub.flatMap _))
  · exact driven_removeDeadGates (h.outputs w hw) (.inl hw)

theorem Valid.removeDeadGates (h : c.Valid) : c.removeDeadGates.1.Valid := by
  refine ⟨h.toWellFormed.removeDeadGates, fun g hg w hw ↦ ?_⟩
  have hmem := h.reads g ((gates_removeDeadGates_sublist c).subset hg) w hw
  exact driven_removeDeadGates hmem (.inr ⟨g, hg, hw⟩)

theorem acyclic_removeDeadGates : c.removeDeadGates.1.Acyclic ↔ c.Acyclic :=
  ⟨acyclic_of_liveGates, fun h ↦ h.of_subset (gates_removeDeadGates_sublist c).subset⟩

theorem Relates.removeDeadGates {ins outs : List Scalar} (h : c.Relates ins outs) :
    c.removeDeadGates.1.Relates ins outs := by
  obtain ⟨r, hr, hins, houts⟩ := h
  exact ⟨r, fun g hg ↦ hr g ((gates_removeDeadGates_sublist c).subset hg), hins, houts⟩

end Quadratize.Circuit
