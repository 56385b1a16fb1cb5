import Quadratize.Proofs.Circuit.Expansion
import Quadratize.Proofs.Circuit.Readiness
import Quadratize.Proofs.StableSort

/-!
# Depth

A gate has depth zero if it reads only primary inputs, and otherwise it is one deeper than the
deepest gate that it reads from.  If the gates of a circuit can be put into evaluation order then
one function satisfies this equation.  Layer `k` holds the gates of depth `k` where they stood, so
sorting a circuit layer by layer is stable sorting by depth, and a second time it changes nothing.
-/

namespace Quadratize

namespace Circuit

variable {c d : Circuit} {δ δ' : Gate → Nat} {g : Gate} {k : Nat}

/-- The gates that drive an input of a gate. -/
def producers (c : Circuit) (g : Gate) : Finset Gate :=
  c.gates.toFinset.filter fun d ↦ ∃ w ∈ d.outs, w ∈ g.ins

theorem mem_producers {p : Gate} : p ∈ c.producers g ↔ p ∈ c.gates ∧ ∃ w ∈ p.outs, w ∈ g.ins := by
  rw [producers, Finset.mem_filter, List.mem_toFinset]

/-- The depth of a gate, given the depths of the gates that it reads from. -/
def depthAbove (c : Circuit) (δ : Gate → Nat) (g : Gate) : Nat :=
  if ∀ w ∈ g.ins, w ∈ c.inputWires then 0 else 1 + (c.producers g).sup δ

/-- A function that gives every gate its depth. -/
def IsDepth (c : Circuit) (δ : Gate → Nat) : Prop :=
  ∀ g ∈ c.gates, δ g = c.depthAbove δ g

/-- The depth of a gate as far as paths of at most `n` gates show it. -/
def depthWithin (c : Circuit) : Nat → Gate → Nat
  | 0, _ => 0
  | n + 1, g => c.depthAbove (c.depthWithin n) g

/-- The depth of a gate: no path is longer than the list of gates. -/
def depth (c : Circuit) (g : Gate) : Nat :=
  c.depthWithin c.gates.length g

theorem depthAbove_congr (h : ∀ p ∈ c.producers g, δ p = δ' p) :
    c.depthAbove δ g = c.depthAbove δ' g := by
  rw [depthAbove, depthAbove, Finset.sup_congr rfl h]

/-! ## There is one depth -/

/-- What drives an input of a gate stands in front of the gate. -/
theorem mem_of_mem_producers (hc : c.driven.Nodup) {before after : List Gate} {p : Gate}
    (hperm : (before ++ g :: after).Perm c.gates)
    (horder : Gate.InOrder Gate.ins c.inputWires (before ++ g :: after))
    (hp : p ∈ c.producers g) : p ∈ before := by
  obtain ⟨hp, w, hwp, hwg⟩ := mem_producers.mp hp
  obtain ⟨-, hnodup, hdisjoint⟩ := List.nodup_append.mp hc
  have hready := horder.mem_ready (List.mem_append_right before (List.mem_singleton_self g)) hwg
  rcases List.mem_append.mp hready with hin | hmem
  · exact absurd rfl (hdisjoint w hin w (List.mem_flatMap.mpr ⟨p, hp, hwp⟩))
  · obtain ⟨b, hb, hwb⟩ := List.mem_flatMap.mp hmem
    have hbgates : b ∈ c.gates := hperm.mem_iff.mp (List.mem_append_left _ hb)
    obtain rfl := Gate.eq_of_mem_outs hnodup hp hbgates hwp hwb
    exact hb

/-- Longer paths do not show more of the first gates of an evaluation order than paths of their
number. -/
theorem depthWithin_eq (hc : c.driven.Nodup) {before after : List Gate}
    (hperm : (before ++ after).Perm c.gates)
    (horder : Gate.InOrder Gate.ins c.inputWires (before ++ after)) {m n : Nat}
    (hm : before.length ≤ m) (hn : before.length ≤ n) (hg : g ∈ before) :
    c.depthWithin m g = c.depthWithin n g := by
  induction before using List.reverseRecOn generalizing after g m n with
  | nil => cases hg
  | append_singleton before a ih =>
    rw [List.length_append, List.length_singleton] at hm hn
    rw [List.append_assoc, List.singleton_append] at hperm horder
    rcases List.mem_append.mp hg with hg | hg
    · exact ih hperm horder (Nat.le_of_succ_le hm) (Nat.le_of_succ_le hn) hg
    · obtain rfl := List.mem_singleton.mp hg
      obtain ⟨m, rfl⟩ := Nat.exists_eq_add_of_lt hm
      obtain ⟨n, rfl⟩ := Nat.exists_eq_add_of_lt hn
      apply depthAbove_congr
      intro p hp
      have hfront := mem_of_mem_producers hc hperm horder hp
      exact ih hperm horder (Nat.le_add_right _ _) (Nat.le_add_right _ _) hfront

theorem isDepth_depth (hc : c.driven.Nodup) (h : c.Orderable) : c.IsDepth c.depth := by
  obtain ⟨order, hperm, horder⟩ := h
  intro g hg
  have hall : (order ++ []).Perm c.gates := by rwa [List.append_nil]
  have hlength := hperm.length_eq
  exact depthWithin_eq hc hall (by rwa [List.append_nil]) hlength.le
    (hlength.le.trans (Nat.le_succ _)) (hperm.mem_iff.mpr hg)

theorem IsDepth.eq (h : c.IsDepth δ) (h' : c.IsDepth δ') (hc : c.Acyclic) :
    ∀ g ∈ c.gates, δ g = δ' g := by
  refine Gate.Acyclic.induction (P := fun g ↦ δ g = δ' g) hc ?_
  intro g hg hfeeds
  rw [h g hg, h' g hg]
  apply depthAbove_congr
  intro p hp
  obtain ⟨hp, w, hwp, hwg⟩ := mem_producers.mp hp
  exact hfeeds p hp w hwp hwg

/-- The order of the gates does not matter. -/
theorem IsDepth.of_perm (h : c.IsDepth δ) (hinputs : d.inputWires = c.inputWires)
    (hperm : d.gates.Perm c.gates) : d.IsDepth δ := by
  intro g hg
  rw [h g (hperm.mem_iff.mp hg), depthAbove, depthAbove, producers, producers, hinputs,
    List.toFinset_eq_of_perm _ _ hperm]

/-! ## Layers by depth -/

/-- A primary input or an output of a gate of less depth. -/
def ReadyAt (c : Circuit) (δ : Gate → Nat) (k : Nat) (w : Wire) : Prop :=
  w ∈ c.inputWires ∨ ∃ p ∈ c.gates, δ p < k ∧ w ∈ p.outs

/-- The gates that are not less deep. -/
def deepGates (c : Circuit) (δ : Gate → Nat) (k : Nat) : List Gate :=
  c.gates.filter (k ≤ δ ·)

theorem mem_deepGates : g ∈ c.deepGates δ k ↔ g ∈ c.gates ∧ k ≤ δ g := by
  rw [deepGates, List.mem_filter, decide_eq_true_iff]

theorem deepGates_zero (c : Circuit) (δ : Gate → Nat) : c.deepGates δ 0 = c.gates := by
  rw [deepGates, List.filter_eq_self]
  intro g _
  exact decide_eq_true (Nat.zero_le _)

theorem deepGates_succ (c : Circuit) (δ : Gate → Nat) (k : Nat) :
    c.deepGates δ (k + 1) = (c.deepGates δ k).filter (δ · ≠ k) := by
  rw [deepGates, deepGates, List.filter_filter]
  apply List.filter_congr
  intro g _
  rw [← Bool.decide_and, decide_eq_decide]
  omega

theorem readyAt_succ {w : Wire} : c.ReadyAt δ (k + 1) w ↔
    c.ReadyAt δ k w ∨ ∃ p ∈ (c.deepGates δ k).filter (δ · = k), w ∈ p.outs := by
  rw [ReadyAt, ReadyAt, or_assoc]
  apply or_congr_right
  constructor
  · rintro ⟨p, hp, hlt, hw⟩
    by_cases heq : δ p = k
    · refine .inr ⟨p, List.mem_filter.mpr ⟨?_, decide_eq_true heq⟩, hw⟩
      exact mem_deepGates.mpr ⟨hp, heq.ge⟩
    · exact .inl ⟨p, hp, by omega, hw⟩
  · rintro (⟨p, hp, hlt, hw⟩ | ⟨p, hp, hw⟩)
    · exact ⟨p, hp, Nat.lt_succ_of_lt hlt, hw⟩
    · obtain ⟨hdeep, heq⟩ := List.mem_filter.mp hp
      have heq := of_decide_eq_true heq
      exact ⟨p, (mem_deepGates.mp hdeep).1, by omega, hw⟩

/-- Among the gates that are not less deep, those of depth `k` are ready. -/
theorem IsDepth.isReady_iff (hδ : c.IsDepth δ) (hc : c.Valid) {ready : List Wire}
    (hready : ∀ w, w ∈ ready ↔ c.ReadyAt δ k w) (hg : g ∈ c.deepGates δ k) :
    isReady ready g = true ↔ δ g = k := by
  obtain ⟨hg, hk⟩ := mem_deepGates.mp hg
  obtain ⟨-, hnodup, hdisjoint⟩ := List.nodup_append.mp hc.nodup
  rw [Circuit.isReady_iff]
  have hdepth := hδ g hg
  rw [depthAbove] at hdepth
  constructor
  · intro hins
    split_ifs at hdepth with hprimary
    · omega
    · push Not at hprimary
      obtain ⟨v, hv, hnot⟩ := hprimary
      -- Every gate that is read from is less deep, and there is one.
      have hless : ∀ p ∈ c.producers g, δ p < k := by
        intro p hp
        obtain ⟨hp, w, hwp, hwg⟩ := mem_producers.mp hp
        rcases (hready w).mp (hins hwg) with hin | ⟨q, hq, hlt, hwq⟩
        · exact absurd rfl (hdisjoint w hin w (List.mem_flatMap.mpr ⟨p, hp, hwp⟩))
        · obtain rfl := Gate.eq_of_mem_outs hnodup hp hq hwp hwq
          exact hlt
      have hpos : 0 < k := by
        obtain ⟨q, -, hlt, -⟩ := ((hready v).mp (hins hv)).resolve_left hnot
        exact Nat.zero_lt_of_lt hlt
      have hsup := (Finset.sup_lt_iff hpos).mpr hless
      omega
  · intro heq w hw
    rw [hready]
    rcases mem_driven.mp (hc.reads g hg w hw) with hin | ⟨p, hp, hwp⟩
    · exact .inl hin
    · have hprimary : ¬∀ w ∈ g.ins, w ∈ c.inputWires := fun hall ↦
        hdisjoint w (hall w hw) w (List.mem_flatMap.mpr ⟨p, hp, hwp⟩) rfl
      rw [if_neg hprimary] at hdepth
      have hle := Finset.le_sup (f := δ) (mem_producers.mpr ⟨hp, w, hwp, hw⟩)
      exact .inr ⟨p, hp, by omega, hwp⟩

theorem IsDepth.stablySorted_layered (hδ : c.IsDepth δ) (hc : c.Valid) {ready : List Wire}
    {sorted : List Gate} (hready : ∀ w, w ∈ ready ↔ c.ReadyAt δ k w)
    (h : layered ready (c.deepGates δ k) = .ok sorted) :
    StablySorted δ (c.deepGates δ k) sorted := by
  induction hn : (c.deepGates δ k).length using Nat.strongRecOn
    generalizing k ready sorted with
  | ind n ih =>
    have hlayer : readyGates ready (c.deepGates δ k) = (c.deepGates δ k).filter (δ · = k) := by
      apply List.filter_congr
      intro g hg
      rw [Bool.eq_iff_iff, hδ.isReady_iff hc hready hg, decide_eq_true_iff]
    have hlater : waitingGates ready (c.deepGates δ k) = c.deepGates δ (k + 1) := by
      rw [deepGates_succ]
      apply List.filter_congr
      intro g hg
      rw [Bool.eq_iff_iff, Bool.not_eq_true', Bool.eq_false_iff, ne_eq,
        hδ.isReady_iff hc hready hg, decide_eq_true_iff]
    by_cases hnil : c.deepGates δ k = []
    · rw [hnil, layered] at h
      obtain rfl := Except.ok.inj h
      rw [hnil]
      exact ⟨.nil, .nil, fun _ ↦ rfl⟩
    · obtain ⟨g, rest, hcons⟩ := List.exists_cons_of_ne_nil hnil
      rw [hcons, layered_cons, ← hcons] at h
      split_ifs at h with hempty
      obtain ⟨tail, htail, rfl⟩ := map_eq_ok.mp h
      have hshort := length_waitingGates hempty
      rw [hlater] at htail hshort
      have hnext : ∀ w, w ∈ ready ++ (readyGates ready (c.deepGates δ k)).flatMap Gate.outs ↔
          c.ReadyAt δ (k + 1) w := by
        intro w
        rw [List.mem_append, List.mem_flatMap, hready, hlayer, readyAt_succ]
      have hsorted := ih _ (hn ▸ hshort) hnext htail rfl
      rw [deepGates_succ] at hsorted
      rw [hlayer]
      exact StablySorted.append (fun g hg ↦ (mem_deepGates.mp hg).2) hsorted

/-- Sorting arranges the gates stably by depth. -/
theorem IsDepth.stablySorted (hδ : c.IsDepth δ) (hc : c.Valid) (h : c.sortGates = .ok d) :
    StablySorted δ c.gates d.gates := by
  obtain ⟨sorted, hsorted, h⟩ := bind_eq_ok.mp h
  obtain rfl := Except.ok.inj h
  have hready : ∀ w, w ∈ c.inputWires ↔ c.ReadyAt δ 0 w := by
    intro w
    constructor
    · exact .inl
    · rintro (hin | ⟨p, -, hlt, -⟩)
      · exact hin
      · exact absurd hlt (Nat.not_lt_zero _)
  rw [← c.deepGates_zero δ] at hsorted ⊢
  exact hδ.stablySorted_layered hc hready hsorted

/-! ## Sorting again -/

/-- What has been sorted stays as it is. -/
theorem Valid.sortGates_sortGates (hc : c.Valid) (h : c.sortGates = .ok d) :
    d.sortGates = .ok d := by
  obtain ⟨hinputs, hperm, horder, -⟩ := sortGates_spec h
  have hwires := inputWires_sortGates h
  have hδ := isDepth_depth hc.nodup ⟨d.gates, hperm, horder⟩
  have hdepth := hδ.of_perm hwires hperm
  have hsame : d.Orderable := ⟨d.gates, .refl _, hwires ▸ horder⟩
  obtain ⟨e, he⟩ := exists_sortGates_iff.mpr hsame
  have hgates : e.gates = d.gates := by
    have hagain := hdepth.stablySorted (hc.sortGates h) he
    apply eq_of_ascending_of_ties hagain.ascending (hδ.stablySorted hc h).ascending
    exact hagain.ties
  have houtputs := outputs_sortGates_of_ascending he (outputs_sortGates_ascending h)
  have heq : e = d := by
    obtain ⟨hein, -⟩ := sortGates_spec he
    cases e
    cases d
    simp only at hgates houtputs hein
    rw [hgates, houtputs, hein]
  rw [he, heq]

/-! ## In place -/

/-- The second circuit is the first with its gates sorted stably by depth and its declared outputs
sorted, and sorting it again does not change it. -/
structure DepthSorted (c d : Circuit) : Prop where
  isDepth : c.IsDepth c.depth
  depth_unique : ∀ δ, c.IsDepth δ → ∀ g ∈ c.gates, δ g = c.depth g
  inputs : d.inputs = c.inputs
  gates : StablySorted c.depth c.gates d.gates
  outputs : StablySorted Wire.id c.outputs d.outputs
  again : sortGatesInPlace.run.run d = (.ok (), d)

theorem Valid.depthSorted (hc : c.Valid) (h : c.sortGates = .ok d) : DepthSorted c d := by
  obtain ⟨hinputs, hperm, horder, houtputs⟩ := sortGates_spec h
  have horderable : c.Orderable := ⟨d.gates, hperm, horder⟩
  have hdepth := isDepth_depth hc.nodup horderable
  constructor
  · exact hdepth
  · intro δ hδ
    exact hδ.eq hdepth (horderable.acyclic hc.nodup)
  · exact hinputs
  · exact hdepth.stablySorted hc h
  · rw [houtputs]
    exact stablySorted_mergeSort Wire.id c.outputs
  · exact run_sortGatesInPlace_eq_ok.mpr (hc.sortGates_sortGates h)

/-- Sorting a valid circuit in place is stable sorting by depth. -/
theorem sortGates_stable (hvalid : c.validate = .ok ())
    (h : sortGatesInPlace.run.run c = (.ok (), d)) :
    DepthSorted c d ∧ d.gates = c.gates.mergeSort fun a b ↦ c.depth a ≤ c.depth b := by
  have hsort := run_sortGatesInPlace_eq_ok.mp h
  have hsorted := (validate_eq_ok.mp hvalid).depthSorted hsort
  exact ⟨hsorted, hsorted.gates.eq_mergeSort⟩

/-- A chain of three gates listed from its end, and a gate that reads nothing. -/
def reversedChain : Circuit where
  inputs := [⟨0, []⟩, ⟨1, []⟩]
  gates := [⟨.mul, [3, 2], [4], []⟩, ⟨.mul, [2, 1], [3], []⟩, ⟨.mul, [1, 1], [2], []⟩,
    ⟨.quadratic (.linear (.constant 1)), [], [5], []⟩]
  outputs := [4, 2, 5]

theorem sortGates_stable_reversedChain :
    reversedChain.validate = .ok () ∧ reversedChain.gates.map reversedChain.depth = [2, 1, 0, 0] ∧
    ∃ d, sortGatesInPlace.run.run reversedChain = (.ok (), d) ∧
      d.gates.map Gate.outs = [[2], [5], [3], [4]] ∧ DepthSorted reversedChain d ∧
      d.gates = reversedChain.gates.mergeSort fun a b ↦
        reversedChain.depth a ≤ reversedChain.depth b := by
  have hvalid : reversedChain.validate = .ok () := by decide
  obtain ⟨d, hsort, hd⟩ := exists_ok_of_any (x := reversedChain.sortGates)
    (P := fun d ↦ decide (d.gates.map Gate.outs = [[2], [5], [3], [4]])) (by decide +kernel)
  have hrun := run_sortGatesInPlace_eq_ok.mpr hsort
  exact ⟨hvalid, by decide, d, hrun, of_decide_eq_true hd, sortGates_stable hvalid hrun⟩

end Circuit

end Quadratize
