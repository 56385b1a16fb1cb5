import Mathlib.Algebra.Order.Field.Rat
import Mathlib.Data.Finset.Lattice.Fold
import Mathlib.Logic.Relation
import Mathlib.Order.WellFounded
import Quadratize.Proofs.Circuit.Layers
import Quadratize.Proofs.Circuit.Rename

/-!
# Acyclic gates

Gates are acyclic if wires can be ranked so that every gate drives wires of a higher rank than those
that it reads.  Gates that can be put into evaluation order are acyclic, and acyclic gates that read
only assigned wires can be put into evaluation order: among the gates that wait for an input, one
of lowest rank waits for nothing.
-/

namespace Quadratize

namespace Gate

variable {gates rest : List Gate} {g d : Gate} {ρ : Wire → ℚ}

/-- Every wire that the gate drives has a higher rank than every wire that it reads. -/
def Ascends (ρ : Wire → ℚ) (g : Gate) : Prop :=
  ∀ v ∈ g.ins, ∀ w ∈ g.outs, ρ v < ρ w

/-- There are ranks of wires at which all gates ascend. -/
def Acyclic (gates : List Gate) : Prop :=
  ∃ ρ : Wire → ℚ, ∀ g ∈ gates, g.Ascends ρ

theorem Acyclic.of_subset (h : Acyclic gates) (hsub : rest ⊆ gates) : Acyclic rest := by
  obtain ⟨ρ, hρ⟩ := h
  exact ⟨ρ, fun g hg ↦ hρ g (hsub hg)⟩

/-- Only the wires that gates read and drive matter. -/
theorem Acyclic.of_map_wires (h : Acyclic gates)
    (hwires : rest.map (fun g ↦ (g.ins, g.outs)) = gates.map fun g ↦ (g.ins, g.outs)) :
    Acyclic rest := by
  obtain ⟨ρ, hρ⟩ := h
  refine ⟨ρ, fun g hg ↦ ?_⟩
  have hmem : (g.ins, g.outs) ∈ gates.map fun g ↦ (g.ins, g.outs) :=
    hwires ▸ List.mem_map_of_mem hg
  obtain ⟨d, hd, he⟩ := List.mem_map.mp hmem
  obtain ⟨hins, houts⟩ := Prod.mk.inj he
  rw [Ascends, ← hins, ← houts]
  exact hρ d hd

/-- A gate that drives only wires that are not read closes no cycle. -/
theorem Acyclic.cons (h : Acyclic gates) (hg : ∀ w ∈ g.outs, ∀ d ∈ g :: gates, w ∉ d.ins) :
    Acyclic (g :: gates) := by
  obtain ⟨ρ, hρ⟩ := h
  obtain ⟨b, hb⟩ : ∃ b, ∀ v ∈ g.ins, ρ v < b := by
    obtain ⟨b, hb⟩ := (g.ins.map ρ).toFinset.bddAbove
    refine ⟨b + 1, fun v hv ↦ ?_⟩
    exact (hb (by simpa using ⟨v, hv, rfl⟩)).trans_lt (lt_add_one b)
  -- The wires that the gate drives are lifted above those that it reads.
  refine ⟨fun w ↦ if w ∈ g.outs then max (ρ w) b else ρ w, fun d hd v hv w hw ↦ ?_⟩
  have hkeep : v ∉ g.outs := fun hmem ↦ hg v hmem d hd hv
  dsimp only
  rw [if_neg hkeep]
  rcases List.mem_cons.mp hd with rfl | hmem
  · rw [if_pos hw]
    exact lt_max_of_lt_right (hb v hv)
  · split_ifs
    · exact lt_max_of_lt_left (hρ d hmem v hv w hw)
    · exact hρ d hmem v hv w hw

/-! ## From wire to wire -/

/-- A gate reads the first wire and drives the second. -/
def Feeds (gates : List Gate) (v w : Wire) : Prop :=
  ∃ g ∈ gates, v ∈ g.ins ∧ w ∈ g.outs

theorem lt_of_feeds {v w : Wire} (hρ : ∀ g ∈ gates, g.Ascends ρ)
    (h : Relation.TransGen (Feeds gates) v w) : ρ v < ρ w := by
  have hstep {v w : Wire} : Feeds gates v w → ρ v < ρ w := fun ⟨g, hg, hv, hw⟩ ↦ hρ g hg v hv w hw
  induction h with
  | single h => exact hstep h
  | tail _ h ih => exact ih.trans (hstep h)

theorem exists_reader_of_feeds {v w : Wire} (h : Relation.TransGen (Feeds gates) v w) :
    ∃ g ∈ gates, v ∈ g.ins := by
  induction h using Relation.TransGen.head_induction_on with
  | single h =>
    obtain ⟨g, hg, hv, -⟩ := h
    exact ⟨g, hg, hv⟩
  | head h =>
    obtain ⟨g, hg, hv, -⟩ := h
    exact ⟨g, hg, hv⟩

/-! ## Induction along the wires -/

/-- Gates have ranks, so that a gate ranks below the readers of its outputs. -/
theorem Acyclic.exists_rank (h : Acyclic gates) : ∃ μ : Gate → WithBot ℚ,
    ∀ d ∈ gates, ∀ g, ∀ w ∈ d.outs, w ∈ g.ins → μ d < μ g := by
  obtain ⟨ρ, hρ⟩ := h
  refine ⟨fun g ↦ g.ins.toFinset.sup fun v ↦ (ρ v : WithBot ℚ), fun d hd g w hw hwg ↦ ?_⟩
  calc d.ins.toFinset.sup (fun v ↦ (ρ v : WithBot ℚ)) < ρ w := by
        rw [Finset.sup_lt_iff (WithBot.bot_lt_coe _)]
        intro v hv
        exact WithBot.coe_lt_coe.mpr (hρ d hd v (List.mem_toFinset.mp hv) w hw)
    _ ≤ g.ins.toFinset.sup fun v ↦ (ρ v : WithBot ℚ) :=
        Finset.le_sup (f := fun v ↦ (ρ v : WithBot ℚ)) (List.mem_toFinset.mpr hwg)

/-- What holds of a gate if it holds of the gates that it reads from, holds of all gates. -/
theorem Acyclic.induction {P : Gate → Prop} (h : Acyclic gates)
    (hstep : ∀ g ∈ gates, (∀ d ∈ gates, ∀ w ∈ d.outs, w ∈ g.ins → P d) → P g) :
    ∀ g ∈ gates, P g := by
  obtain ⟨μ, hμ⟩ := h.exists_rank
  have hwf : WellFounded fun d g : {g // g ∈ gates} ↦ μ d < μ g :=
    Finite.wellFounded_of_trans_of_irrefl _
  intro g hg
  induction hgate : (⟨g, hg⟩ : {g // g ∈ gates}) using hwf.induction generalizing g with
  | _ x ih =>
    subst hgate
    exact hstep g hg fun d hd w hw hwg ↦ ih ⟨d, hd⟩ (hμ d hd g w hw hwg) d hd rfl

/-- What holds of a gate if it holds of the gates that read from it, holds of all gates. -/
theorem Acyclic.induction_back {P : Gate → Prop} (h : Acyclic gates)
    (hstep : ∀ g ∈ gates, (∀ d ∈ gates, ∀ w ∈ g.outs, w ∈ d.ins → P d) → P g) :
    ∀ g ∈ gates, P g := by
  obtain ⟨μ, hμ⟩ := h.exists_rank
  have hwf : WellFounded fun d g : {g // g ∈ gates} ↦ μ g < μ d :=
    Finite.wellFounded_of_trans_of_irrefl _
  intro g hg
  induction hgate : (⟨g, hg⟩ : {g // g ∈ gates}) using hwf.induction generalizing g with
  | _ x ih =>
    subst hgate
    exact hstep g hg fun d hd w hw hwd ↦ ih ⟨d, hd⟩ (hμ g hg d w hw hwd) d hd rfl

/-! ## Evaluation order -/

/-- Gates in evaluation order are acyclic: a wire ranks by its place among the driven wires. -/
theorem InOrder.acyclic {ready : List Wire} (h : InOrder ins ready gates)
    (hnodup : (ready ++ gates.flatMap outs).Nodup) : Acyclic gates := by
  refine ⟨fun w ↦ (ready ++ gates.flatMap outs).idxOf w, fun g hg v hv w hw ↦ ?_⟩
  obtain ⟨before, after, rfl⟩ := List.append_of_mem hg
  have hready := h.mem_ready (List.mem_append_right before (List.mem_singleton_self g)) hv
  rw [List.flatMap_append, ← List.append_assoc, List.flatMap_cons] at hnodup ⊢
  have hlate : w ∉ ready ++ before.flatMap outs := fun hmem ↦
    (List.nodup_append.mp hnodup).2.2 w hmem w (List.mem_append_left _ hw) rfl
  dsimp only
  rw [List.idxOf_append_of_mem hready, List.idxOf_append_of_notMem hlate, Nat.cast_lt]
  exact (List.idxOf_lt_length_of_mem hready).trans_le (Nat.le_add_right _ _)

/-- Among acyclic gates that read ready wires and outputs of each other, one is ready. -/
theorem Acyclic.exists_ready {ready : List Wire} (h : Acyclic gates) (hne : gates ≠ [])
    (hreads : ∀ g ∈ gates, ∀ w ∈ g.ins, w ∈ ready ∨ ∃ d ∈ gates, w ∈ d.outs) :
    ∃ g ∈ gates, ∀ w ∈ g.ins, w ∈ ready := by
  by_contra hstuck
  push Not at hstuck
  obtain ⟨g, hg⟩ := List.exists_mem_of_ne_nil gates hne
  refine h.induction (P := fun _ ↦ False) (fun g hg hfeeds ↦ ?_) g hg
  obtain ⟨w, hw, hwait⟩ := hstuck g hg
  obtain ⟨d, hd, hwd⟩ := (hreads g hg w hw).resolve_left hwait
  exact hfeeds d hd w hwd hw

/-- Renaming wires apart changes nothing. -/
theorem acyclic_map_rename {f : Wire → Wire} {S : Set Wire} (hf : Set.InjOn f S)
    (hS : ∀ g ∈ gates, ∀ w ∈ g.ins ++ g.outs, w ∈ S) :
    Acyclic (gates.map (rename f)) ↔ Acyclic gates := by
  constructor
  · rintro ⟨ρ, hρ⟩
    refine ⟨ρ ∘ f, fun g hg v hv w hw ↦ ?_⟩
    exact hρ _ (List.mem_map_of_mem hg) (f v) (List.mem_map_of_mem hv) (f w)
      (List.mem_map_of_mem hw)
  · rintro ⟨ρ, hρ⟩
    refine ⟨ρ ∘ Function.invFunOn f S, fun g' hg' v' hv' w' hw' ↦ ?_⟩
    obtain ⟨g, hg, rfl⟩ := List.mem_map.mp hg'
    obtain ⟨v, hv, rfl⟩ := List.mem_map.mp hv'
    obtain ⟨w, hw, rfl⟩ := List.mem_map.mp hw'
    have hvS := hf.leftInvOn_invFunOn (hS g hg v (List.mem_append_left _ hv))
    have hwS := hf.leftInvOn_invFunOn (hS g hg w (List.mem_append_right _ hw))
    rw [Function.comp_apply, Function.comp_apply, hvS, hwS]
    exact hρ g hg v hv w hw

end Gate

namespace Circuit

variable {c d : Circuit}

/-- The gates are acyclic. -/
def Acyclic (c : Circuit) : Prop :=
  Gate.Acyclic c.gates

/-- The gates can be put into an order in which each gate reads only primary inputs and outputs of
gates before it. -/
def Orderable (c : Circuit) : Prop :=
  ∃ order : List Gate, order.Perm c.gates ∧ Gate.InOrder Gate.ins c.inputWires order

theorem Orderable.acyclic (h : c.Orderable) (hc : c.driven.Nodup) : c.Acyclic := by
  obtain ⟨order, hperm, horder⟩ := h
  have hdriven : (c.inputWires ++ order.flatMap Gate.outs).Nodup :=
    ((hperm.flatMap_right Gate.outs).append_left _).nodup_iff.mpr hc
  exact (horder.acyclic hdriven).of_subset fun _ hg ↦ hperm.mem_iff.mpr hg

/-- Acyclic gates that read ready wires and outputs of each other can be put into layers. -/
theorem exists_layered {ready : List Wire} {gates : List Gate} (h : Gate.Acyclic gates)
    (hreads : ∀ g ∈ gates, ∀ w ∈ g.ins, w ∈ ready ∨ ∃ d ∈ gates, w ∈ d.outs) :
    ∃ sorted, layered ready gates = .ok sorted := by
  induction hn : gates.length using Nat.strongRecOn generalizing ready gates with
  | ind n ih =>
    cases gates with
    | nil =>
      rw [layered]
      exact ⟨[], rfl⟩
    | cons g rest =>
      obtain ⟨a, ha, hready⟩ := h.exists_ready (List.cons_ne_nil g rest) hreads
      have hlt : (waitingGates ready (g :: rest)).length < (g :: rest).length :=
        List.length_filter_lt_length_iff_exists.mpr ⟨a, ha, by simpa [isReady] using hready⟩
      have hlater : ∀ d ∈ waitingGates ready (g :: rest), ∀ w ∈ d.ins,
          w ∈ ready ++ (readyGates ready (g :: rest)).flatMap Gate.outs ∨
            ∃ b ∈ waitingGates ready (g :: rest), w ∈ b.outs := by
        intro d hd w hw
        rw [List.mem_append, List.mem_flatMap, or_assoc]
        rcases hreads d (List.mem_of_mem_filter hd) w hw with hw | ⟨b, hb, hwb⟩
        · exact .inl hw
        · -- The gate that drives the wire is in this layer or waits itself.
          cases hrb : isReady ready b with
          | true => exact .inr (.inl ⟨b, List.mem_filter.mpr ⟨hb, hrb⟩, hwb⟩)
          | false => exact .inr (.inr ⟨b, List.mem_filter.mpr ⟨hb, by rw [hrb]; rfl⟩, hwb⟩)
      obtain ⟨tail, htail⟩ := ih _ (hn ▸ hlt) (h.of_subset (List.filter_subset_self _)) hlater rfl
      rw [layered, dif_pos hlt]
      exact ⟨_, bind_eq_ok.mpr ⟨tail, htail, rfl⟩⟩

theorem Valid.exists_layered (hc : c.Valid) (h : c.Acyclic) :
    ∃ sorted, layered c.inputWires c.gates = .ok sorted :=
  Circuit.exists_layered h fun g hg w hw ↦ mem_driven.mp (hc.reads g hg w hw)

/-- The gates of a valid circuit can be ordered exactly if they are acyclic. -/
theorem Valid.orderable_iff (hc : c.Valid) : c.Orderable ↔ c.Acyclic := by
  refine ⟨fun h ↦ h.acyclic hc.nodup, fun h ↦ ?_⟩
  obtain ⟨sorted, hsorted⟩ := hc.exists_layered h
  exact ⟨sorted, layered_spec hsorted⟩

theorem Valid.exists_sortGates (hc : c.Valid) (h : c.Acyclic) : ∃ d, c.sortGates = .ok d := by
  obtain ⟨sorted, hsorted⟩ := hc.exists_layered h
  exact ⟨_, bind_eq_ok.mpr ⟨sorted, hsorted, rfl⟩⟩

theorem acyclic_rename {f : Wire → Wire} (hf : Set.InjOn f {w | w ∈ c.wires}) :
    (c.rename f).Acyclic ↔ c.Acyclic :=
  Gate.acyclic_map_rename hf fun _ hg _ hw ↦ mem_wires_of_gate hg (List.mem_append.mp hw)

end Circuit

end Quadratize
