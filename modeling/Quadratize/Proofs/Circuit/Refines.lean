import Mathlib.Data.List.Perm.Basic
import Mathlib.Order.CountableDenseLinearOrder
import Quadratize.Proofs.Circuit.Acyclic

/-!
# Replacing gates with the help of new wires

A list of gates refines another if it drives the same wires and new ones besides, and the
assignments that satisfy the new gates are the extensions, one for each, of those that satisfy the
old gates.  Ranks of wires extend to the new wires as well, so that no cycle is opened or closed.
Refinements compose one after the other and side by side.
-/

namespace Quadratize

/-- All wires of the gate have numbers below the limit. -/
def Gate.Below (limit : Nat) (g : Gate) : Prop :=
  ∀ w ∈ g.ins ++ g.outs, w.id < limit

/-- Two assignments agree on the wires with numbers below the limit. -/
def AgreeBelow {α : Type} (limit : Nat) (r q : Wire → α) : Prop :=
  ∀ w : Wire, w.id < limit → q w = r w

theorem AgreeBelow.trans {α : Type} {m n : Nat} {r q s : Wire → α} (h : AgreeBelow m r q)
    (h' : AgreeBelow n q s) (hle : m ≤ n) : AgreeBelow m r s :=
  fun w hw ↦ (h' w (hw.trans_le hle)).trans (h w hw)

theorem Gate.Below.mono {m n : Nat} {g : Gate} (h : g.Below m) (hle : m ≤ n) : g.Below n :=
  fun w hw ↦ (h w hw).trans_le hle

/-- An equation below the limit does not see what happens above it. -/
theorem AgreeBelow.holds_iff {limit : Nat} {r q : Wire → Scalar} (h : AgreeBelow limit r q)
    {g : Gate} (hg : g.WellFormed) (hbelow : g.Below limit) : g.Holds q ↔ g.Holds r := by
  refine Gate.holds_congr hg.shaped (fun w hw ↦ h w ?_) fun w hw ↦ h w ?_
  · exact hbelow w (List.mem_append_left _ (hg.mem_ins hw))
  · exact hbelow w (List.mem_append_right _ hw)

/-- An assignment changed at a wire above the limit. -/
theorem agreeBelow_update {α : Type} (r : Wire → α) (v : Wire) (a : α) :
    AgreeBelow v.id r (Function.update r v a) := by
  intro w hw
  have hne : w ≠ v := by
    rintro rfl
    exact Nat.lt_irrefl _ hw
  exact Function.update_of_ne hne a r

/-- Two new wires may carry any values. -/
theorem exists_agreeBelow {α : Type} {k : Nat} {v w : Wire} (hv : v.id = k) (hw : w.id = k + 1)
    (r : Wire → α) (a b : α) : ∃ q, AgreeBelow k r q ∧ q v = a ∧ q w = b := by
  have hfirst : AgreeBelow k r (Function.update r v a) := hv ▸ agreeBelow_update r v a
  have hsecond : AgreeBelow (k + 1) _ (Function.update (Function.update r v a) w b) :=
    hw ▸ agreeBelow_update _ w b
  refine ⟨_, hfirst.trans hsecond (Nat.le_succ k), ?_, Function.update_self ..⟩
  exact (hsecond v (hv ▸ Nat.lt_succ_self k)).trans (Function.update_self ..)

/-! ## Paths over new wires -/

/-- The wires that the gate drives have higher ranks than those that it reads and than `one`. -/
def Gate.AscendsFrom (one : Wire) (ρ : Wire → ℚ) (g : Gate) : Prop :=
  (∀ w ∈ g.outs, ρ one < ρ w) ∧ g.Ascends ρ

theorem Gate.ascendsFrom_iff {one z : Wire} {ρ : Wire → ℚ} {g : Gate} (h : g.outs = [z]) :
    g.AscendsFrom one ρ ↔ ρ one < ρ z ∧ g.Ascends ρ := by
  rw [AscendsFrom, h, List.forall_mem_singleton]

theorem AgreeBelow.ascendsFrom {limit : Nat} {one : Wire} {ρ σ : Wire → ℚ}
    (h : AgreeBelow limit ρ σ) (hone : one.id < limit) {g : Gate} (hg : g.AscendsFrom one ρ)
    (hbelow : g.Below limit) : g.AscendsFrom one σ := by
  have hout {w : Wire} (hw : w ∈ g.outs) : σ w = ρ w := h w (hbelow w (List.mem_append_right _ hw))
  refine ⟨fun w hw ↦ ?_, fun v hv w hw ↦ ?_⟩
  · rw [h one hone, hout hw]
    exact hg.1 w hw
  · rw [h v (hbelow v (List.mem_append_left _ hv)), hout hw]
    exact hg.2 v hv w hw

/-- A wire that no gate drives may be ranked below all that gates drive. -/
theorem Gate.Acyclic.exists_ascendsFrom {gates : List Gate} (h : Acyclic gates) {one : Wire}
    (hone : ∀ g ∈ gates, one ∉ g.outs) : ∃ ρ, ∀ g ∈ gates, g.AscendsFrom one ρ := by
  obtain ⟨ρ, hρ⟩ := h
  obtain ⟨b, hb⟩ := ((gates.flatMap outs).map ρ).toFinset.bddBelow
  have hlow {g : Gate} (hg : g ∈ gates) {w : Wire} (hw : w ∈ g.outs) : b ≤ ρ w :=
    hb (by simpa using ⟨w, ⟨g, hg, hw⟩, rfl⟩)
  refine ⟨Function.update ρ one (b - 1), fun g hg ↦ ?_⟩
  have hout {w : Wire} (hw : w ∈ g.outs) : Function.update ρ one (b - 1) w = ρ w := by
    have hne : w ≠ one := fun he ↦ hone g hg (he ▸ hw)
    exact Function.update_of_ne hne _ _
  have hlt {w : Wire} (hw : w ∈ g.outs) : b - 1 < ρ w := (sub_one_lt b).trans_le (hlow hg hw)
  refine ⟨fun w hw ↦ ?_, fun v hv w hw ↦ ?_⟩
  · rw [Function.update_self, hout hw]
    exact hlt hw
  · rw [hout hw]
    by_cases he : v = one
    · rw [he, Function.update_self]
      exact hlt hw
    · rw [Function.update_of_ne he]
      exact hρ g hg v hv w hw

/-- There is room for a rank between the inputs of a gate and its outputs. -/
theorem Gate.AscendsFrom.exists_between {one : Wire} {ρ : Wire → ℚ} {g : Gate}
    (h : g.AscendsFrom one ρ) :
    ∃ x, ρ one < x ∧ (∀ v ∈ g.ins, ρ v < x) ∧ ∀ w ∈ g.outs, x < ρ w := by
  have hlt : ∀ x ∈ ((one :: g.ins).map ρ).toFinset, ∀ y ∈ (g.outs.map ρ).toFinset, x < y := by
    simpa [AscendsFrom, Ascends] using h
  obtain ⟨x, hlow, hhigh⟩ := Order.exists_between_finsets _ _ hlt
  simp only [List.map_cons, List.toFinset_cons, Finset.forall_mem_insert, List.mem_toFinset,
    List.forall_mem_map] at hlow hhigh
  exact ⟨x, hlow.1, hlow.2, hhigh⟩

/-- The gates `after` lead from wire to wire as the gates `before` do, on the way over new wires,
which are numbered from `next` on and all of which are read. -/
structure Rewires (one : Wire) (next : Nat) (before after : List Gate) : Prop where
  rank : ∀ ρ, (∀ g ∈ before, g.AscendsFrom one ρ) →
    ∃ σ, AgreeBelow next ρ σ ∧ ∀ g ∈ after, g.AscendsFrom one σ
  unrank : ∀ ρ, (∀ g ∈ after, g.Ascends ρ) → ∀ g ∈ before, g.Ascends ρ
  reads : before.flatMap Gate.ins ⊆ after.flatMap Gate.ins
  used : ∀ g ∈ after, (∃ w ∈ g.outs, w ∈ after.flatMap Gate.ins) ∨ ∃ d ∈ before, g.outs = d.outs

namespace Rewires

variable {one : Wire} {k m n : Nat} {a b c a' b' : List Gate}

theorem refl : Rewires one n a a where
  rank := fun ρ hρ ↦ ⟨ρ, fun _ _ ↦ rfl, hρ⟩
  unrank := fun _ hρ ↦ hρ
  reads := List.Subset.refl _
  used := fun g hg ↦ .inr ⟨g, hg, rfl⟩

theorem of_perm (h : Rewires one n a b) (hb : b'.Perm b) : Rewires one n a b' where
  rank := by
    intro ρ hρ
    obtain ⟨σ, hσ, hb'⟩ := h.rank ρ hρ
    exact ⟨σ, hσ, fun g hg ↦ hb' g (hb.mem_iff.mp hg)⟩
  unrank := fun ρ hρ ↦ h.unrank ρ fun g hg ↦ hρ g (hb.mem_iff.mpr hg)
  reads := fun w hw ↦ (hb.flatMap_right Gate.ins).mem_iff.mpr (h.reads hw)
  used := by
    intro g hg
    simp only [(hb.flatMap_right Gate.ins).mem_iff]
    exact h.used g (hb.mem_iff.mp hg)

theorem trans (h : Rewires one k a b) (h' : Rewires one m b c) (hle : k ≤ m) :
    Rewires one k a c where
  rank := by
    intro ρ hρ
    obtain ⟨σ, hσ, hb⟩ := h.rank ρ hρ
    obtain ⟨τ, hτ, hc⟩ := h'.rank σ hb
    exact ⟨τ, hσ.trans hτ hle, hc⟩
  unrank := fun ρ hρ ↦ h.unrank ρ (h'.unrank ρ hρ)
  reads := List.Subset.trans h.reads h'.reads
  used := by
    intro g hg
    rcases h'.used g hg with hread | ⟨d, hd, hgd⟩
    · exact .inl hread
    · rcases h.used d hd with ⟨w, hw, hread⟩ | ⟨e, he, hde⟩
      · exact .inl ⟨w, hgd ▸ hw, h'.reads hread⟩
      · exact .inr ⟨e, he, hgd.trans hde⟩

theorem append (h : Rewires one k a a') (h' : Rewires one m b b') (hle : k ≤ m) (hone : one.id < k)
    (ha' : ∀ g ∈ a', g.Below m) (hb : ∀ g ∈ b, g.Below k) :
    Rewires one k (a ++ b) (a' ++ b') where
  rank := by
    intro ρ hρ
    obtain ⟨hρa, hρb⟩ := List.forall_mem_append.mp hρ
    obtain ⟨σ, hσ, hσa⟩ := h.rank ρ hρa
    obtain ⟨τ, hτ, hτb⟩ := h'.rank σ fun g hg ↦ hσ.ascendsFrom hone (hρb g hg) (hb g hg)
    refine ⟨τ, hσ.trans hτ hle, List.forall_mem_append.mpr ⟨fun g hg ↦ ?_, hτb⟩⟩
    exact hτ.ascendsFrom (hone.trans_le hle) (hσa g hg) (ha' g hg)
  unrank := by
    intro ρ hρ
    obtain ⟨hρa, hρb⟩ := List.forall_mem_append.mp hρ
    exact List.forall_mem_append.mpr ⟨h.unrank ρ hρa, h'.unrank ρ hρb⟩
  reads := by
    rw [List.flatMap_append, List.flatMap_append]
    exact List.append_subset.mpr ⟨List.subset_append_of_subset_left _ h.reads,
      List.subset_append_of_subset_right _ h'.reads⟩
  used := by
    intro g hg
    rw [List.flatMap_append]
    simp only [List.mem_append]
    rcases List.mem_append.mp hg with hg | hg
    · exact (h.used g hg).imp (fun ⟨w, hw, hr⟩ ↦ ⟨w, hw, .inl hr⟩) fun ⟨d, hd, he⟩ ↦
        ⟨d, .inl hd, he⟩
    · exact (h'.used g hg).imp (fun ⟨w, hw, hr⟩ ↦ ⟨w, hw, .inr hr⟩) fun ⟨d, hd, he⟩ ↦
        ⟨d, .inr hd, he⟩

end Rewires

/-! ## Solutions over new wires -/

/-- Where the gates `after` hold the gates `before` do, and what the gates `after` drive is
determined by the wires of the gates `before`.  The wire `one` carries the constant one. -/
structure Reflects (one : Wire) (before after : List Gate) : Prop where
  holds : ∀ q : Wire → Scalar, q one = 1 → (∀ g ∈ after, g.Holds q) → ∀ g ∈ before, g.Holds q
  unique : ∀ q q' : Wire → Scalar, q one = 1 → q' one = 1 →
    (∀ g ∈ before, ∀ w ∈ g.ins ++ g.outs, q w = q' w) → (∀ g ∈ after, g.Holds q) →
      (∀ g ∈ after, g.Holds q') → ∀ g ∈ after, ∀ w ∈ g.outs, q w = q' w

namespace Reflects

variable {one : Wire} {a b c a' b' : List Gate}

theorem refl : Reflects one a a where
  holds := fun _ _ hq ↦ hq
  unique := fun _ _ _ _ hagree _ _ g hg w hw ↦ hagree g hg w (List.mem_append_right _ hw)

theorem of_perm (h : Reflects one a b) (hb : b'.Perm b) : Reflects one a b' where
  holds := fun q hone hq ↦ h.holds q hone fun g hg ↦ hq g (hb.mem_iff.mpr hg)
  unique := fun q q' hone hone' hagree hq hq' g hg ↦
    h.unique q q' hone hone' hagree (fun d hd ↦ hq d (hb.mem_iff.mpr hd))
      (fun d hd ↦ hq' d (hb.mem_iff.mpr hd)) g (hb.mem_iff.mp hg)

theorem trans (h : Reflects one a b) (h' : Reflects one b c)
    (hins : ∀ g ∈ b, ∀ w ∈ g.ins, w = one ∨ w ∈ a.flatMap Gate.ins ∨ w ∈ b.flatMap Gate.outs) :
    Reflects one a c where
  holds := fun q hone hq ↦ h.holds q hone (h'.holds q hone hq)
  unique := by
    intro q q' hone hone' hagree hq hq'
    have houts := h.unique q q' hone hone' hagree (h'.holds q hone hq) (h'.holds q' hone' hq')
    refine h'.unique q q' hone hone' (fun g hg w hw ↦ ?_) hq hq'
    rcases List.mem_append.mp hw with hw | hw
    · rcases hins g hg w hw with rfl | hw | hw
      · rw [hone, hone']
      · obtain ⟨d, hd, hw⟩ := List.mem_flatMap.mp hw
        exact hagree d hd w (List.mem_append_left _ hw)
      · obtain ⟨d, hd, hw⟩ := List.mem_flatMap.mp hw
        exact houts d hd w hw
    · exact houts g hg w hw

theorem append (h : Reflects one a a') (h' : Reflects one b b') :
    Reflects one (a ++ b) (a' ++ b') where
  holds := by
    intro q hone hq
    obtain ⟨ha, hb⟩ := List.forall_mem_append.mp hq
    exact List.forall_mem_append.mpr ⟨h.holds q hone ha, h'.holds q hone hb⟩
  unique := by
    intro q q' hone hone' hagree hq hq'
    obtain ⟨hagreeA, hagreeB⟩ := List.forall_mem_append.mp hagree
    obtain ⟨ha, hb⟩ := List.forall_mem_append.mp hq
    obtain ⟨ha', hb'⟩ := List.forall_mem_append.mp hq'
    exact List.forall_mem_append.mpr ⟨h.unique q q' hone hone' hagreeA ha ha',
      h'.unique q q' hone hone' hagreeB hb hb'⟩

end Reflects

/-! ## Refinement -/

/-- The gates `after` do what the gates `before` do, with new wires that are numbered from `next`
on and below `last`.  The wire `one` carries the constant one. -/
structure Refines (one : Wire) (next last : Nat) (before after : List Gate) : Prop where
  le : next ≤ last
  wellFormed : ∀ g ∈ after, g.WellFormed
  outs : ∃ fresh, (after.flatMap Gate.outs).Perm (before.flatMap Gate.outs ++ fresh) ∧
    fresh.Nodup ∧ ∀ w ∈ fresh, next ≤ w.id ∧ w.id < last
  ins : ∀ g ∈ after, ∀ w ∈ g.ins, w = one ∨ w ∈ before.flatMap Gate.ins ∨
    w ∈ after.flatMap Gate.outs
  extend : ∀ r : Wire → Scalar, r one = 1 → (∀ g ∈ before, g.Holds r) →
    ∃ q, AgreeBelow next r q ∧ ∀ g ∈ after, g.Holds q
  reflects : Reflects one before after
  rewires : Rewires one next before after

namespace Refines

variable {one : Wire} {k m n : Nat} {a b c a' b' : List Gate}

theorem refl (h : ∀ g ∈ a, g.WellFormed) : Refines one n n a a where
  le := Nat.le_refl n
  wellFormed := h
  outs := ⟨[], by simp, .nil, nofun⟩
  ins := fun g hg w hw ↦ .inr (.inl (List.mem_flatMap.mpr ⟨g, hg, hw⟩))
  extend := fun r _ hr ↦ ⟨r, fun _ _ ↦ rfl, hr⟩
  reflects := .refl
  rewires := .refl

theorem of_perm (h : Refines one m n a b) (hb : b'.Perm b) : Refines one m n a b' where
  le := h.le
  wellFormed := fun g hg ↦ h.wellFormed g (hb.mem_iff.mp hg)
  outs := by
    obtain ⟨fresh, hperm, hnodup, hfresh⟩ := h.outs
    exact ⟨fresh, (hb.flatMap_right _).trans hperm, hnodup, hfresh⟩
  ins := by
    intro g hg w hw
    rw [(hb.flatMap_right Gate.outs).mem_iff]
    exact h.ins g (hb.mem_iff.mp hg) w hw
  extend := by
    intro r hone hr
    obtain ⟨q, hq, hb'⟩ := h.extend r hone hr
    exact ⟨q, hq, fun g hg ↦ hb' g (hb.mem_iff.mp hg)⟩
  reflects := h.reflects.of_perm hb
  rewires := h.rewires.of_perm hb

/-- What was driven is still driven. -/
theorem mem_outs (h : Refines one m n a b) {w : Wire} (hw : w ∈ a.flatMap Gate.outs) :
    w ∈ b.flatMap Gate.outs := by
  obtain ⟨fresh, hperm, -⟩ := h.outs
  exact hperm.mem_iff.mpr (List.mem_append_left _ hw)

/-- The new wires stay below the last number. -/
theorem below (h : Refines one m n a b) (hone : one.id < m) (ha : ∀ g ∈ a, g.Below m) :
    ∀ g ∈ b, g.Below n := by
  have houts : ∀ w ∈ b.flatMap Gate.outs, w.id < n := by
    intro w hw
    obtain ⟨fresh, hperm, -, hfresh⟩ := h.outs
    rcases List.mem_append.mp (hperm.mem_iff.mp hw) with hw | hw
    · obtain ⟨g, hg, hw⟩ := List.mem_flatMap.mp hw
      exact (ha g hg w (List.mem_append_right _ hw)).trans_le h.le
    · exact (hfresh w hw).2
  intro g hg w hw
  rcases List.mem_append.mp hw with hw | hw
  · rcases h.ins g hg w hw with rfl | hw | hw
    · exact hone.trans_le h.le
    · obtain ⟨d, hd, hw⟩ := List.mem_flatMap.mp hw
      exact (ha d hd w (List.mem_append_left _ hw)).trans_le h.le
    · exact houts w hw
  · exact houts w (List.mem_flatMap.mpr ⟨g, hg, hw⟩)

theorem trans (h : Refines one k m a b) (h' : Refines one m n b c) (hone : one.id < k) :
    Refines one k n a c where
  le := h.le.trans h'.le
  wellFormed := h'.wellFormed
  outs := by
    obtain ⟨fresh, hperm, hnodup, hfresh⟩ := h.outs
    obtain ⟨fresh', hperm', hnodup', hfresh'⟩ := h'.outs
    refine ⟨fresh ++ fresh', ?_, ?_, fun w hw ↦ ?_⟩
    · rw [← List.append_assoc]
      exact hperm'.trans (hperm.append_right fresh')
    · refine List.nodup_append.mpr ⟨hnodup, hnodup', fun v hv w hw he ↦ ?_⟩
      have hv := (hfresh v hv).2
      have hw := (hfresh' w hw).1
      rw [he] at hv
      omega
    · rcases List.mem_append.mp hw with hw | hw
      · exact ⟨(hfresh w hw).1, (hfresh w hw).2.trans_le h'.le⟩
      · exact ⟨h.le.trans (hfresh' w hw).1, (hfresh' w hw).2⟩
  ins := by
    intro g hg w hw
    rcases h'.ins g hg w hw with hw | hw | hw
    · exact .inl hw
    · obtain ⟨d, hd, hw⟩ := List.mem_flatMap.mp hw
      rcases h.ins d hd w hw with hw | hw | hw
      · exact .inl hw
      · exact .inr (.inl hw)
      · exact .inr (.inr (h'.mem_outs hw))
    · exact .inr (.inr hw)
  extend := by
    intro r hr ha
    obtain ⟨q, hq, hb⟩ := h.extend r hr ha
    obtain ⟨s, hs, hc⟩ := h'.extend q ((hq one hone).trans hr) hb
    exact ⟨s, hq.trans hs h.le, hc⟩
  reflects := h.reflects.trans h'.reflects h.ins
  rewires := h.rewires.trans h'.rewires h.le

/-- Refinements side by side. -/
theorem append (h : Refines one k m a a') (h' : Refines one m n b b') (hone : one.id < k)
    (ha : ∀ g ∈ a, g.Below k) (hb : ∀ g ∈ b, g.WellFormed ∧ g.Below k) :
    Refines one k n (a ++ b) (a' ++ b') where
  le := h.le.trans h'.le
  wellFormed := fun g hg ↦ (List.mem_append.mp hg).elim (h.wellFormed g) (h'.wellFormed g)
  outs := by
    obtain ⟨fresh, hperm, hnodup, hfresh⟩ := h.outs
    obtain ⟨fresh', hperm', hnodup', hfresh'⟩ := h'.outs
    refine ⟨fresh ++ fresh', ?_, ?_, fun w hw ↦ ?_⟩
    · rw [List.flatMap_append, List.flatMap_append, List.append_assoc]
      refine (hperm.append hperm').trans ?_
      rw [List.append_assoc]
      exact (List.perm_append_comm_assoc _ _ _).append_left _
    · refine List.nodup_append.mpr ⟨hnodup, hnodup', fun v hv w hw he ↦ ?_⟩
      have hv := (hfresh v hv).2
      have hw := (hfresh' w hw).1
      rw [he] at hv
      omega
    · rcases List.mem_append.mp hw with hw | hw
      · exact ⟨(hfresh w hw).1, (hfresh w hw).2.trans_le h'.le⟩
      · exact ⟨h.le.trans (hfresh' w hw).1, (hfresh' w hw).2⟩
  ins := by
    intro g hg w hw
    rw [List.flatMap_append, List.flatMap_append, List.mem_append, List.mem_append]
    rcases List.mem_append.mp hg with hg | hg
    · rcases h.ins g hg w hw with hw | hw | hw
      · exact .inl hw
      · exact .inr (.inl (.inl hw))
      · exact .inr (.inr (.inl hw))
    · rcases h'.ins g hg w hw with hw | hw | hw
      · exact .inl hw
      · exact .inr (.inl (.inr hw))
      · exact .inr (.inr (.inr hw))
  extend := by
    intro r hr hab
    -- The gates on the right still hold when the left side has been extended, and the left side
    -- lies below the new wires of the right side.
    obtain ⟨q, hq, ha'⟩ := h.extend r hr fun g hg ↦ hab g (List.mem_append_left _ hg)
    have hbq : ∀ g ∈ b, g.Holds q := fun g hg ↦
      (hq.holds_iff (hb g hg).1 (hb g hg).2).mpr (hab g (List.mem_append_right _ hg))
    obtain ⟨s, hs, hb'⟩ := h'.extend q ((hq one hone).trans hr) hbq
    refine ⟨s, hq.trans hs h.le, fun g hg ↦ ?_⟩
    rcases List.mem_append.mp hg with hg | hg
    · exact (hs.holds_iff (h.wellFormed g hg) (h.below hone ha g hg)).mpr (ha' g hg)
    · exact hb' g hg
  reflects := h.reflects.append h'.reflects
  rewires := h.rewires.append h'.rewires h.le hone (h.below hone ha) fun g hg ↦ (hb g hg).2

end Refines

end Quadratize
