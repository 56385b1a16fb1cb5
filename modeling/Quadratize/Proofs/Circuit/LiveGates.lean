import Mathlib.Logic.Function.Basic
import Mathlib.Order.Bounds.Basic
import Quadratize.Proofs.Circuit.DeadGates

/-!
# The largest live set

A set of gates is live if each of its gates drives a declared output or a wire that a gate of the
set reads.  The gates that stay when dead gates are removed are the largest live set, in whatever
order gates stand and whatever cycles they form: a sweep removes no gate of a live set, and all
gates together are live when a sweep removes none.  A sweep that counts the uses of wires never
counts below zero.  Where no gate reads ahead, the first sweep removes all dead gates.
-/

namespace Quadratize.Circuit

variable {outputs others uses ws rest : List Wire} {gates : List Gate} {P : Gate → Prop}

/-! ## Live gates outlast sweeps -/

/-- The gates with the property keep each other alive: each of them drives one of the wires or a
wire that one of them reads. -/
def Sustained (outputs : List Wire) (gates : List Gate) (P : Gate → Prop) : Prop :=
  ∀ g ∈ gates, P g → ∃ w ∈ g.outs, w ∈ outputs ∨ ∃ a ∈ gates, P a ∧ w ∈ a.ins

/-- A sweep removes no gate that is kept alive. -/
theorem Sustained.filter_sublist_sweepDead [DecidablePred P] (hlive : Sustained others gates P)
    (h : uses.Perm (others ++ gates.flatMap Gate.ins)) :
    (gates.filter P).Sublist (sweepDead uses gates).1 := by
  induction gates generalizing others with
  | nil => exact .slnil
  | cons g rest ih =>
    have hrest : uses.Perm (others ++ g.ins ++ rest.flatMap Gate.ins) := by simpa using h
    have hbehind : Sustained (others ++ g.ins) rest P := by
      intro d hd hPd
      obtain ⟨w, hw, huse | ⟨a, ha, hPa, hwa⟩⟩ := hlive d (List.mem_cons_of_mem g hd) hPd
      · exact ⟨w, hw, .inl (List.mem_append_left _ huse)⟩
      · rcases List.mem_cons.mp ha with rfl | ha
        · exact ⟨w, hw, .inl (List.mem_append_right _ hwa)⟩
        · exact ⟨w, hw, .inr ⟨a, ha, hPa, hwa⟩⟩
    have hkept := ih hbehind hrest
    obtain ⟨-, hperm, -⟩ := sweepDead_spec hrest
    rw [sweepDead]
    dsimp only
    by_cases hg : P g
    · -- What keeps the gate alive is still used when the sweep comes to it.
      have hused : g.outs.any (· ∈ (sweepDead uses rest).2) = true := by
        obtain ⟨w, hw, huse⟩ := hlive g List.mem_cons_self hg
        apply List.any_eq_true.mpr
        refine ⟨w, hw, decide_eq_true (hperm.mem_iff.mpr ?_)⟩
        rw [List.append_assoc, List.mem_append, List.mem_append, List.mem_flatMap]
        rcases huse with huse | ⟨a, ha, hPa, hwa⟩
        · exact .inl huse
        · rcases List.mem_cons.mp ha with rfl | ha
          · exact .inr (.inl hwa)
          · have hmem : a ∈ rest.filter P := List.mem_filter.mpr ⟨ha, decide_eq_true hPa⟩
            exact .inr (.inr ⟨a, hkept.subset hmem, hwa⟩)
      have hpos : decide (P g) = true := decide_eq_true hg
      rw [if_pos hused, List.filter_cons, if_pos hpos]
      exact hkept.cons_cons g
    · have hneg : ¬decide (P g) = true := fun h ↦ hg (of_decide_eq_true h)
      rw [List.filter_cons, if_neg hneg]
      split_ifs
      · exact hkept.cons g
      · exact hkept

/-- Gates that keep each other alive still do so among the gates that a sweep keeps. -/
theorem Sustained.sweepDead (hlive : Sustained outputs gates P) :
    Sustained outputs (sweepDead (allUses outputs gates) gates).1 P := by
  classical
  have hkept := hlive.filter_sublist_sweepDead (.refl (allUses outputs gates))
  have hsub := (sweepDead_spec (.refl (allUses outputs gates))).1
  intro g hg hPg
  obtain ⟨w, hw, huse | ⟨a, ha, hPa, hwa⟩⟩ := hlive g (hsub.subset hg) hPg
  · exact ⟨w, hw, .inl huse⟩
  · have hmem : a ∈ gates.filter P := List.mem_filter.mpr ⟨ha, decide_eq_true hPa⟩
    exact ⟨w, hw, .inr ⟨a, hkept.subset hmem, hPa, hwa⟩⟩

/-- Gates that keep each other alive stay. -/
theorem Sustained.filter_sublist_liveGates [DecidablePred P] (hlive : Sustained outputs gates P) :
    (gates.filter P).Sublist (liveGates outputs gates).1 := by
  induction hn : gates.length using Nat.strongRecOn generalizing gates with
  | ind n ih =>
    rw [fst_liveGates]
    split_ifs with hlt
    · have hkept := (hlive.filter_sublist_sweepDead (.refl (allUses outputs gates))).filter P
      rw [List.filter_filter] at hkept
      simp only [Bool.and_self] at hkept
      exact hkept.trans (ih _ (hn ▸ hlt) hlive.sweepDead rfl)
    · exact List.filter_sublist

/-- The gates that stay keep each other alive. -/
theorem sustained_liveGates (outputs : List Wire) (gates : List Gate) :
    Sustained outputs (liveGates outputs gates).1 fun _ ↦ True := by
  intro g hg _
  obtain ⟨w, hw, huse⟩ := (liveGates_spec outputs gates).2.2 g hg
  rw [allUses, List.mem_append, List.mem_flatMap] at huse
  rcases huse with huse | ⟨a, ha, hwa⟩
  · exact ⟨w, hw, .inl huse⟩
  · exact ⟨w, hw, .inr ⟨a, ha, trivial, hwa⟩⟩

/-- Of equal gates, either all stay or none. -/
theorem liveGates_eq_filter (outputs : List Wire) (gates : List Gate) :
    (liveGates outputs gates).1 = gates.filter (· ∈ (liveGates outputs gates).1) := by
  have hsub := (liveGates_spec outputs gates).1
  have hlive : Sustained outputs gates (· ∈ (liveGates outputs gates).1) := by
    intro g _ hg
    obtain ⟨w, hw, huse | ⟨a, ha, -, hwa⟩⟩ := sustained_liveGates outputs gates g hg trivial
    · exact ⟨w, hw, .inl huse⟩
    · exact ⟨w, hw, .inr ⟨a, hsub.subset ha, ha, hwa⟩⟩
  apply List.Sublist.antisymm
  · have hself := hsub.filter (· ∈ (liveGates outputs gates).1)
    rwa [List.filter_eq_self.mpr fun g hg ↦ decide_eq_true hg] at hself
  · exact hlive.filter_sublist_liveGates

/-- Where all gates keep each other alive, the first sweep removes nothing. -/
theorem Sustained.liveGates_eq (hlive : Sustained outputs gates fun _ ↦ True) :
    liveGates outputs gates = (gates, ⟨0, 1⟩) := by
  have hkept := hlive.filter_sublist_sweepDead (.refl (allUses outputs gates))
  rw [List.filter_eq_self.mpr fun _ _ ↦ decide_eq_true trivial] at hkept
  rw [liveGates, dif_neg (Nat.not_lt_of_le hkept.length_le)]

/-! ## Counting rounds -/

theorem liveGates_of_lt (h : (sweepDead (allUses outputs gates) gates).1.length < gates.length) :
    liveGates outputs gates =
      ((liveGates outputs (sweepDead (allUses outputs gates) gates).1).1,
        ⟨(liveGates outputs (sweepDead (allUses outputs gates) gates).1).2.removed +
            (gates.length - (sweepDead (allUses outputs gates) gates).1.length),
          (liveGates outputs (sweepDead (allUses outputs gates) gates).1).2.rounds + 1⟩) := by
  rw [liveGates]
  exact dif_pos h

theorem liveGates_of_not_lt
    (h : ¬(sweepDead (allUses outputs gates) gates).1.length < gates.length) :
    liveGates outputs gates = (gates, ⟨0, 1⟩) := by
  rw [liveGates]
  exact dif_neg h

/-- Removed gates are counted, and every round but the last removes one. -/
theorem liveGates_counts (outputs : List Wire) (gates : List Gate) :
    (liveGates outputs gates).2.removed + (liveGates outputs gates).1.length = gates.length ∧
      (liveGates outputs gates).2.rounds ≤ (liveGates outputs gates).2.removed + 1 := by
  induction hn : gates.length using Nat.strongRecOn generalizing gates with
  | ind n ih =>
    by_cases hlt : (sweepDead (allUses outputs gates) gates).1.length < gates.length
    · obtain ⟨hremoved, hrounds⟩ := ih _ (hn ▸ hlt) _ rfl
      rw [liveGates_of_lt hlt]
      dsimp only
      omega
    · rw [liveGates_of_not_lt hlt]
      exact ⟨by rw [← hn, Nat.zero_add], le_rfl⟩

/-- No gate reads what it drives itself or what a gate behind it drives. -/
def ReadsBack (gates : List Gate) : Prop :=
  (∀ g ∈ gates, ∀ w ∈ g.ins, w ∉ g.outs) ∧ gates.Pairwise fun g d ↦ ∀ w ∈ g.ins, w ∉ d.outs

theorem ReadsBack.head {g : Gate} (h : ReadsBack (g :: gates)) {d : Gate} (hd : d ∈ g :: gates)
    {w : Wire} (hw : w ∈ g.ins) : w ∉ d.outs := by
  rcases List.mem_cons.mp hd with rfl | hd
  · exact h.1 d List.mem_cons_self w hw
  · exact (List.pairwise_cons.mp h.2).1 d hd w hw

theorem ReadsBack.tail {g : Gate} (h : ReadsBack (g :: gates)) : ReadsBack gates :=
  ⟨(List.forall_mem_cons.mp h.1).2, (List.pairwise_cons.mp h.2).2⟩

/-- Where no gate reads ahead, the gates that a sweep keeps are kept alive by each other: the wire
that saves a gate is read only behind it, and the gates behind it have been swept already. -/
theorem ReadsBack.sustained_sweepDead (hback : ReadsBack gates)
    (h : uses.Perm (others ++ gates.flatMap Gate.ins)) :
    Sustained others (sweepDead uses gates).1 fun _ ↦ True := by
  induction gates generalizing others with
  | nil => exact nofun
  | cons g rest ih =>
    have hrest : uses.Perm (others ++ g.ins ++ rest.flatMap Gate.ins) := by simpa using h
    obtain ⟨hsub, hperm, -⟩ := sweepDead_spec hrest
    have hbehind : Sustained others (sweepDead uses rest).1 fun _ ↦ True := by
      intro d hd _
      obtain ⟨w, hw, huse | huse⟩ := ih hback.tail hrest d hd trivial
      · rcases List.mem_append.mp huse with huse | huse
        · exact ⟨w, hw, .inl huse⟩
        · exact absurd hw (hback.head (List.mem_cons_of_mem g (hsub.subset hd)) huse)
      · exact ⟨w, hw, .inr huse⟩
    rw [sweepDead]
    dsimp only
    split_ifs with hused
    · intro d hd _
      rcases List.mem_cons.mp hd with rfl | hd
      · obtain ⟨w, hw, huse⟩ := List.any_eq_true.mp hused
        have hmem := hperm.mem_iff.mp (of_decide_eq_true huse)
        rw [List.append_assoc, List.mem_append, List.mem_append, List.mem_flatMap] at hmem
        rcases hmem with hmem | hmem | ⟨a, ha, hwa⟩
        · exact ⟨w, hw, .inl hmem⟩
        · exact absurd hw (hback.head List.mem_cons_self hmem)
        · exact ⟨w, hw, .inr ⟨a, List.mem_cons_of_mem d ha, trivial, hwa⟩⟩
      · obtain ⟨w, hw, huse | ⟨a, ha, -, hwa⟩⟩ := hbehind d hd trivial
        · exact ⟨w, hw, .inl huse⟩
        · exact ⟨w, hw, .inr ⟨a, List.mem_cons_of_mem g ha, trivial, hwa⟩⟩
    · exact hbehind

/-- Where no gate reads ahead, one sweep removes all dead gates and one more sees that. -/
theorem ReadsBack.rounds_le_two (hback : ReadsBack gates) (outputs : List Wire) :
    (liveGates outputs gates).2.rounds ≤ 2 := by
  by_cases hlt : (sweepDead (allUses outputs gates) gates).1.length < gates.length
  · have hlive := hback.sustained_sweepDead (.refl (allUses outputs gates))
    rw [liveGates_of_lt hlt, hlive.liveGates_eq]
  · rw [liveGates_of_not_lt hlt]
    exact one_le_two

/-! ## Counting uses -/

/-- Ends one use of a wire, unless its counter is zero. -/
def countDown? (n : Wire → Nat) (w : Wire) : Option (Wire → Nat) :=
  if n w = 0 then none else some (Function.update n w (n w - 1))

/-- Sweeps gates from the last to the first with a counter of uses for each wire.  There is no
result if a counter at zero is to be lowered. -/
def countedSweep? (n : Wire → Nat) : List Gate → Option (List Gate × (Wire → Nat))
  | [] => some ([], n)
  | g :: rest =>
    match countedSweep? n rest with
    | none => none
    | some (kept, left) =>
      if g.outs.any (0 < left ·) then some (g :: kept, left)
      else (g.ins.foldlM countDown? left).map fun left ↦ (kept, left)

/-- Repeats sweeps with counters until nothing changes. -/
def countedLive? (outputs : List Wire) (gates : List Gate) : Option (List Gate × Sweeps) :=
  match countedSweep? (fun w ↦ (allUses outputs gates).count w) gates with
  | none => none
  | some (kept, _) =>
    if _h : kept.length < gates.length then
      (countedLive? outputs kept).map fun (live, s) ↦
        (live, ⟨s.removed + (gates.length - kept.length), s.rounds + 1⟩)
    else some (gates, ⟨0, 1⟩)
termination_by gates.length
decreasing_by exact _h

/-- Counters of uses can be lowered by uses that are there. -/
theorem foldlM_countDown? (h : uses.Perm (ws ++ rest)) :
    ws.foldlM countDown? (fun w ↦ uses.count w) = some fun w ↦ (endUses uses ws).count w := by
  induction ws generalizing uses with
  | nil => rfl
  | cons v ws ih =>
    have hv : uses.count v ≠ 0 := by
      rw [h.count_eq, List.cons_append, List.count_cons_self]
      exact Nat.succ_ne_zero _
    have herase : (uses.erase v).Perm (ws ++ rest) := by
      have herase := h.erase v
      rwa [List.cons_append, List.erase_cons_head] at herase
    have hdown : countDown? (fun w ↦ uses.count w) v = some fun w ↦ (uses.erase v).count w := by
      rw [countDown?, if_neg hv]
      congr 1
      funext w
      by_cases hw : w = v
      · subst hw
        rw [Function.update_self, List.count_erase_self]
      · rw [Function.update_of_ne hw, List.count_erase_of_ne hw]
    rw [List.foldlM_cons, hdown]
    exact ih herase

/-- A sweep that starts with all uses never counts below zero. -/
theorem countedSweep?_eq (h : uses.Perm (others ++ gates.flatMap Gate.ins)) :
    countedSweep? (fun w ↦ uses.count w) gates =
      some ((sweepDead uses gates).1, fun w ↦ (sweepDead uses gates).2.count w) := by
  induction gates generalizing others with
  | nil => rfl
  | cons g rest ih =>
    have hrest : uses.Perm (others ++ g.ins ++ rest.flatMap Gate.ins) := by simpa using h
    obtain ⟨-, hperm, -⟩ := sweepDead_spec hrest
    have hused : g.outs.any (fun w ↦ 0 < (sweepDead uses rest).2.count w) =
        g.outs.any (· ∈ (sweepDead uses rest).2) := by
      simp only [List.count_pos_iff]
    rw [countedSweep?, ih hrest, sweepDead]
    dsimp only
    rw [hused]
    split_ifs
    · rfl
    · -- The uses by the gate itself are still there.
      have hown : (sweepDead uses rest).2.Perm
          (g.ins ++ (others ++ (sweepDead uses rest).1.flatMap Gate.ins)) := by
        refine hperm.trans ?_
        rw [List.append_assoc]
        exact List.perm_append_comm_assoc _ _ _
      rw [foldlM_countDown? hown]
      rfl

theorem countedLive?_eq (outputs : List Wire) (gates : List Gate) :
    countedLive? outputs gates = some (liveGates outputs gates) := by
  induction hn : gates.length using Nat.strongRecOn generalizing gates with
  | ind n ih =>
    rw [countedLive?, countedSweep?_eq (.refl (allUses outputs gates))]
    dsimp only
    split_ifs with hlt
    · rw [ih _ (hn ▸ hlt) _ rfl, liveGates_of_lt hlt]
      rfl
    · rw [liveGates_of_not_lt hlt]

/-! ## Live positions -/

/-- Every gate at a position in the set drives a declared output or a wire that a gate at a position
in the set reads. -/
def LiveAt (c : Circuit) (S : Set Nat) : Prop :=
  ∀ p ∈ S, ∃ g, c.gates[p]? = some g ∧
    ∃ w ∈ g.outs, w ∈ c.outputs ∨ ∃ q ∈ S, ∃ a, c.gates[q]? = some a ∧ w ∈ a.ins

/-- The positions of the gates with a property. -/
def positionsOf (gates : List Gate) (P : Gate → Bool) : List Nat :=
  (gates.zipIdx.filter fun x ↦ P x.1).map Prod.snd

theorem mem_positionsOf {P : Gate → Bool} {p : Nat} :
    p ∈ positionsOf gates P ↔ ∃ g, gates[p]? = some g ∧ P g = true := by
  rw [positionsOf, List.mem_map]
  constructor
  · rintro ⟨⟨g, q⟩, hx, rfl⟩
    obtain ⟨hmem, hP⟩ := List.mem_filter.mp hx
    exact ⟨g, List.mem_zipIdx_iff_getElem?.mp hmem, hP⟩
  · rintro ⟨g, hg, hP⟩
    exact ⟨(g, p), List.mem_filter.mpr ⟨List.mem_zipIdx_iff_getElem?.mpr hg, hP⟩, rfl⟩

theorem pairwise_positionsOf (gates : List Gate) (P : Gate → Bool) :
    (positionsOf gates P).Pairwise (· < ·) := by
  have hall : (gates.zipIdx.map Prod.snd).Pairwise (· < ·) := by
    rw [List.zipIdx_map_snd]
    exact List.pairwise_lt_range'
  exact hall.sublist (List.filter_sublist.map Prod.snd)

theorem getElem?_positionsOf (gates : List Gate) (P : Gate → Bool) :
    (positionsOf gates P).map (gates[·]?) = (gates.filter P).map some := by
  have hget : ∀ x ∈ gates.zipIdx.filter fun x ↦ P x.1, gates[x.2]? = some x.1 := fun x hx ↦
    List.mem_zipIdx_iff_getElem?.mp (List.mem_of_mem_filter hx)
  calc (positionsOf gates P).map (gates[·]?)
      = (gates.zipIdx.filter fun x ↦ P x.1).map fun x ↦ some x.1 := by
        rw [positionsOf, List.map_map]
        exact List.map_congr_left hget
    _ = ((gates.zipIdx.map Prod.fst).filter P).map some := by
        rw [List.filter_map, List.map_map]
        rfl
    _ = (gates.filter P).map some := by
        rw [List.zipIdx_map_fst]

/-- The positions of the gates that stay are the largest live set. -/
theorem isGreatest_positionsOf (c : Circuit) :
    IsGreatest {S | c.LiveAt S}
      {p | p ∈ positionsOf c.gates (· ∈ (liveGates c.outputs c.gates).1)} := by
  classical
  constructor
  · intro p hp
    obtain ⟨g, hg, hlive⟩ := mem_positionsOf.mp hp
    obtain ⟨w, hw, huse | ⟨a, ha, -, hwa⟩⟩ :=
      sustained_liveGates c.outputs c.gates g (of_decide_eq_true hlive) trivial
    · exact ⟨g, hg, w, hw, .inl huse⟩
    · have hsub := (liveGates_spec c.outputs c.gates).1
      obtain ⟨q, hq⟩ := List.mem_iff_getElem?.mp (hsub.subset ha)
      exact ⟨g, hg, w, hw, .inr ⟨q, mem_positionsOf.mpr ⟨a, hq, decide_eq_true ha⟩, a, hq, hwa⟩⟩
  · -- The gates at the positions of a live set keep each other alive.
    intro S hS p hp
    have hlive : Sustained c.outputs c.gates fun g ↦ ∃ q ∈ S, c.gates[q]? = some g := by
      rintro g - ⟨q, hq, hg⟩
      obtain ⟨g', hg', w, hw, huse⟩ := hS q hq
      obtain rfl := Option.some.inj (hg.symm.trans hg')
      rcases huse with huse | ⟨q', hq', a, ha, hwa⟩
      · exact ⟨w, hw, .inl huse⟩
      · exact ⟨w, hw, .inr ⟨a, List.mem_of_getElem? ha, ⟨q', hq', ha⟩, hwa⟩⟩
    obtain ⟨g, hg, -⟩ := hS p hp
    have hkept : g ∈ (liveGates c.outputs c.gates).1 := by
      apply hlive.filter_sublist_liveGates.subset
      exact List.mem_filter.mpr ⟨List.mem_of_getElem? hg, decide_eq_true ⟨p, hp, hg⟩⟩
    exact mem_positionsOf.mpr ⟨g, hg, decide_eq_true hkept⟩

/-! ## Removal of dead gates -/

/-- The second circuit has the gates of the first at the given positions, which are the largest live
set.  The others are counted as removed, and every round but the last removes one. -/
structure Pruned (c d : Circuit) (s : Sweeps) (kept : List Nat) : Prop where
  greatest : IsGreatest {S | c.LiveAt S} {p | p ∈ kept}
  ascending : kept.Pairwise (· < ·)
  gates : kept.map (c.gates[·]?) = d.gates.map some
  inputs : d.inputs = c.inputs
  outputs : d.outputs = c.outputs
  removed : s.removed + kept.length = c.gates.length
  rounds : s.rounds ≤ s.removed + 1

theorem exists_pruned (c : Circuit) :
    ∃ kept, Pruned c c.removeDeadGates.1 c.removeDeadGates.2 kept := by
  obtain ⟨hremoved, hrounds⟩ := liveGates_counts c.outputs c.gates
  have hgates := getElem?_positionsOf c.gates (· ∈ (liveGates c.outputs c.gates).1)
  rw [← liveGates_eq_filter] at hgates
  refine ⟨_, isGreatest_positionsOf c, pairwise_positionsOf _ _, hgates, rfl, rfl, ?_, hrounds⟩
  have hlength := congrArg List.length hgates
  rw [List.length_map, List.length_map] at hlength
  rw [hlength]
  exact hremoved

/-- Removing dead gates leaves the largest live set of gates as it stood.  The same comes of sweeps
with counters, none of which is lowered below zero.  Another removal takes one round and removes
nothing, and where no gate reads ahead two rounds suffice. -/
theorem removeDeadGates_largest (c : Circuit) :
    (∃ kept, Pruned c c.removeDeadGates.1 c.removeDeadGates.2 kept) ∧
      countedLive? c.outputs c.gates = some (c.removeDeadGates.1.gates, c.removeDeadGates.2) ∧
      c.removeDeadGates.1.removeDeadGates = (c.removeDeadGates.1, ⟨0, 1⟩) ∧
      (ReadsBack c.gates → c.removeDeadGates.2.rounds ≤ 2) := by
  refine ⟨exists_pruned c, countedLive?_eq c.outputs c.gates, ?_, fun h ↦ h.rounds_le_two _⟩
  change (({ c with gates := (liveGates c.outputs (liveGates c.outputs c.gates).1).1 } : Circuit),
    (liveGates c.outputs (liveGates c.outputs c.gates).1).2) = _
  rw [(sustained_liveGates c.outputs c.gates).liveGates_eq]
  rfl

/-- A product that is declared, and two more that lead nowhere.  Every gate reads a wire twice or
reads the gate before it. -/
def deadTail : Circuit where
  inputs := [⟨0, []⟩, ⟨1, []⟩]
  gates := [⟨.mul, [1, 1], [2], []⟩, ⟨.mul, [2, 2], [3], []⟩, ⟨.mul, [3, 2], [4], []⟩]
  outputs := [2]

theorem removeDeadGates_deadTail : ReadsBack deadTail.gates ∧
    deadTail.removeDeadGates.2.removed = 2 ∧ deadTail.removeDeadGates.2.rounds ≤ 2 := by
  have hback : ReadsBack deadTail.gates := by
    constructor <;> decide
  exact ⟨hback, by decide +kernel, (removeDeadGates_largest deadTail).2.2.2 hback⟩

end Quadratize.Circuit
