import Quadratize.Circuit.Synthesis
import Quadratize.Proofs.Circuit.Walk
import Quadratize.Proofs.Circuit.Thinning
import Quadratize.Proofs.Form.Standard

/-!
# Quadratic gates

Synthesis puts gates with forms in the place of gates that have the same value, and removes linear
gates.  The linear gates that it leaves are read by linear gates only.  If the gates are acyclic
then synthesis succeeds.  If from every linear gate a chain of linear gates leads to a gate of
another kind, as it does if the gates are acyclic and all needed, then no linear gate is left.
-/

namespace Quadratize

/-- The kinds of gates in a canonical circuit. -/
def Opcode.IsCanonical (op : Opcode) : Prop :=
  (∃ f, op = .quadratic f) ∨ op = .split ∨ op = .zerop

theorem Opcode.IsCanonical.not_isLinear {op : Opcode} (h : op.IsCanonical) :
    op.isLinear = false := by
  rcases h with ⟨f, rfl⟩ | rfl | rfl <;> rfl

/-- A gate, or a quadratic gate that drives the same wires, stands for the gate. -/
def Gate.Recast (g a : Gate) : Prop :=
  a.outs = g.outs ∧ (a = g ∨ ∃ f, a.op = .quadratic f)

namespace Circuit

open Expander

variable {gates : List Gate} {g a : Gate} {p : Nat} {f : QuadForm} {e e' : Expander}

/-! ## Exclusive or -/

theorem synthesizeXor_spec (hg : g.WellFormed) (h : synthesizeXor g = .ok a) :
    a.WellFormed ∧ a.outs = g.outs ∧ a.op ≠ .xor ∧ (∀ r, g.Holds r ↔ a.Holds r) ∧
      (a = g ∨ g.op = .xor ∧ ∃ f, a.op = .quadratic f) := by
  cases hg.shaped with
  | xor x y z note =>
    obtain rfl := Except.ok.inj h
    refine ⟨⟨.quadratic _ _ z note, fun w hw ↦ ?_⟩, rfl, nofun, fun r ↦ ?_, .inr ⟨rfl, _, rfl⟩⟩
    · exact List.mem_pair.mpr (QuadForm.mem_wires_xor hw)
    · have heval := QuadForm.eval_xor r x y
      exact ⟨fun hr ↦ hr.trans heval.symm, fun hr ↦ hr.trans heval⟩
  | _ =>
    obtain rfl := Except.ok.inj h
    exact ⟨hg, rfl, nofun, fun r ↦ Iff.rfl, .inl rfl⟩

/-- The gates after exclusive ors have been given their forms. -/
theorem mapM_synthesizeXor {old : List Gate} (hold : ∀ g ∈ old, g.WellFormed)
    (h : old.mapM synthesizeXor = .ok gates) :
    gates.flatMap Gate.outs = old.flatMap Gate.outs ∧ ∀ a ∈ gates, a.WellFormed ∧ a.op ≠ .xor ∧
      (∀ r, (∀ g ∈ old, g.Holds r) → a.Holds r) ∧ (a ∈ old ∨ ∃ f, a.op = .quadratic f) := by
  replace h := mapM_eq_ok.mp h
  induction h with
  | nil => exact ⟨rfl, nofun⟩
  | cons hga _ ih =>
    obtain ⟨hg, hold⟩ := List.forall_mem_cons.mp hold
    obtain ⟨houts, hgates⟩ := ih hold
    obtain ⟨hwf, hout, hxor, hholds, hop⟩ := synthesizeXor_spec hg hga
    refine ⟨?_, List.forall_mem_cons.mpr ⟨⟨hwf, hxor, fun r hr ↦ ?_, ?_⟩, fun b hb ↦ ?_⟩⟩
    · rw [List.flatMap_cons, List.flatMap_cons, hout, houts]
    · exact (hholds r).mp (hr _ List.mem_cons_self)
    · rcases hop with rfl | ⟨-, hf⟩
      · exact .inl List.mem_cons_self
      · exact .inr hf
    · obtain ⟨hwf, hxor, hholds, hop⟩ := hgates b hb
      refine ⟨hwf, hxor, fun r hr ↦ hholds r (List.forall_mem_cons.mp hr).2, ?_⟩
      exact hop.imp_left fun hb ↦ List.mem_cons_of_mem _ hb

theorem wires_synthesizeXor (h : synthesizeXor g = .ok a) : a.ins = g.ins ∧ a.outs = g.outs := by
  unfold synthesizeXor at h
  split at h
  · obtain rfl := Except.ok.inj h
    exact ⟨rfl, rfl⟩
  · cases h
  · obtain rfl := Except.ok.inj h
    exact ⟨rfl, rfl⟩

/-- Exclusive ors with forms read and drive the same wires. -/
theorem map_wires_synthesizeXor {old : List Gate} (h : old.mapM synthesizeXor = .ok gates) :
    gates.map (fun g ↦ (g.ins, g.outs)) = old.map fun g ↦ (g.ins, g.outs) := by
  replace h := mapM_eq_ok.mp h
  induction h with
  | nil => rfl
  | cons hga _ ih =>
    obtain ⟨hins, houts⟩ := wires_synthesizeXor hga
    rw [List.map_cons, List.map_cons, ih, hins, houts]

theorem exists_reader_of_map_wires {old : List Gate} {w : Wire}
    (h : gates.map (fun g ↦ (g.ins, g.outs)) = old.map fun g ↦ (g.ins, g.outs))
    (hw : ∃ a ∈ gates, w ∈ a.ins) : ∃ b ∈ old, w ∈ b.ins := by
  obtain ⟨a, ha, hwa⟩ := hw
  have hmem : (a.ins, a.outs) ∈ old.map fun g ↦ (g.ins, g.outs) := h ▸ List.mem_map_of_mem ha
  obtain ⟨b, hb, he⟩ := List.mem_map.mp hmem
  exact ⟨b, hb, (Prod.mk.inj he).1 ▸ hwa⟩

/-- A linear gate is not one that has got a form. -/
theorem mem_of_isLinear {old : List Gate} (h : g ∈ old ∨ ∃ f, g.op = .quadratic f)
    (hlinear : g.op.isLinear = true) : g ∈ old := by
  rcases h with h | ⟨f, hf⟩
  · exact h
  · rw [hf] at hlinear
    cases hlinear

theorem exists_mapM_synthesizeXor {old : List Gate} (hold : ∀ g ∈ old, g.WellFormed) :
    ∃ gates, old.mapM synthesizeXor = .ok gates := by
  refine exists_mapM_ok fun g hg ↦ ?_
  cases (hold g hg).shaped with
  | _ => exact ⟨_, rfl⟩

/-! ## Forms of gates -/

/-- The quadratic gate in the place of a gate with a form. -/
def formGate (g : Gate) (f : QuadForm) : Gate :=
  { g.withForm f with note := [] }

/-- The form says what the gate says whenever the linear gates hold, and mentions only wires that
lead to the gate and that no linear gate drives.  It has the standard shape. -/
structure IsForm (gates : List Gate) (g : Gate) (f : QuadForm) : Prop where
  outs : ∃ z, g.outs = [z]
  kind : g.op = .mul ∨ g.op.isLinear = true
  holds_iff : ∀ r : Wire → Scalar, LinearHold gates r → (g.Holds r ↔ (formGate g f).Holds r)
  leaves : ∀ w ∈ f.wires, Leaf gates w
  feeds : ∀ w ∈ f.wires, ∀ z ∈ g.outs, Relation.TransGen (Gate.Feeds gates) w z
  standard : f.Standard

theorem IsForm.wellFormed (h : IsForm gates g f) : (formGate g f).WellFormed := by
  obtain ⟨z, hz⟩ := h.outs
  refine ⟨?_, fun w hw ↦ hw⟩
  rw [formGate, Gate.withForm, hz]
  exact .quadratic f f.wires z []

theorem IsForm.holds (h : IsForm gates g f) {r : Wire → Scalar} (hr : ∀ g ∈ gates, g.Holds r)
    (hg : g ∈ gates) : (formGate g f).Holds r :=
  (h.holds_iff r fun a ha _ ↦ hr a ha).mp (hr g hg)

section

variable (hgates : ∀ g ∈ gates, g.WellFormed) (hnodup : (gates.flatMap Gate.outs).Nodup)
include hgates hnodup

theorem productForm_spec (hg : g ∈ gates) (hop : g.op = .mul) (he : Sound gates e)
    (h : productForm gates e g = .ok (f, e')) :
    Grows gates e e' ∧ (∀ w ∈ g.ins, e'.Covers gates w) ∧ IsForm gates g f := by
  cases (hgates g hg).shaped with
  | mul x y z note =>
    obtain ⟨⟨lhs, e₁⟩, hlhs, h⟩ := bind_eq_ok.mp h
    obtain ⟨⟨rhs, e₂⟩, hrhs, h⟩ := bind_eq_ok.mp h
    obtain ⟨rfl, rfl⟩ := Prod.mk.inj (Except.ok.inj h)
    obtain ⟨he₁, hcx, hx⟩ := expand_spec hgates hnodup he hlhs
    obtain ⟨he₂, hcy, hy⟩ := expand_spec hgates hnodup he₁.sound hrhs
    refine ⟨he₁.trans he₂, ?_, ⟨z, rfl⟩, .inl rfl, fun r hr ↦ ?_, fun w hw ↦ ?_, fun w hw u hu ↦ ?_,
      QuadForm.standard_product (Affine.vars_ne_nil hx.constant) (Affine.vars_ne_nil hy.constant)⟩
    · exact List.forall_mem_cons.mpr ⟨he₂.covers hcx, List.forall_mem_singleton.mpr hcy⟩
    · have heval := QuadForm.eval_product r lhs rhs
      rw [hx.eval r hr, hy.eval r hr] at heval
      exact ⟨fun h ↦ h.trans heval.symm, fun h ↦ h.trans heval⟩
    · exact (QuadForm.mem_wires_product hw).elim (hx.vars w) (hy.vars w)
    · rcases QuadForm.mem_wires_product hw with hw | hw
      · exact .tail' (hx.behind w hw) ⟨_, hg, by simp, hu⟩
      · exact .tail' (hy.behind w hw) ⟨_, hg, by simp, hu⟩
  | _ => cases hop

theorem keptForm_spec (hg : g ∈ gates) (hlinear : g.op.isLinear = true) (he : Sound gates e)
    (h : keptForm gates e g = .ok (f, e')) :
    Grows gates e e' ∧ (∀ w ∈ g.outs, e'.Covers gates w) ∧ IsForm gates g f := by
  obtain ⟨z, hz⟩ := (hgates g hg).shaped.outs_of_isLinear hlinear
  rw [keptForm, hz] at h
  obtain ⟨⟨b, e₁⟩, hb, h⟩ := bind_eq_ok.mp h
  obtain ⟨rfl, rfl⟩ := Prod.mk.inj (Except.ok.inj h)
  obtain ⟨he₁, hcovers, hexp⟩ := expand_spec hgates hnodup he hb
  have honly {u : Wire} (hu : u ∈ g.outs) : u = z := List.mem_singleton.mp (hz ▸ hu)
  refine ⟨he₁, fun u hu ↦ honly hu ▸ hcovers, ⟨z, hz⟩, .inr hlinear, fun r hr ↦ ?_,
    fun w hw ↦ hexp.vars w (QuadForm.mem_wires_linear hw), fun w hw u hu ↦ ?_,
    QuadForm.standard_linear b⟩
  · have heval : r z = (QuadForm.linear b).eval r := by
      rw [QuadForm.eval_linear, hexp.eval r hr]
    refine ⟨fun _ ↦ ?_, fun _ ↦ hr g hg hlinear⟩
    rw [formGate, Gate.withForm, hz]
    exact heval
  · have hw := QuadForm.mem_wires_linear hw
    obtain rfl := honly hu
    rcases Relation.reflTransGen_iff_eq_or_transGen.mp (hexp.behind w hw) with rfl | hfeeds
    · exact absurd hu (hexp.vars _ hw g hg hlinear)
    · exact hfeeds

end

theorem exists_productForm (hgates : ∀ g ∈ gates, g.WellFormed) (hacyclic : Gate.Acyclic gates)
    (hg : g ∈ gates) (hop : g.op = .mul) (e : Expander) : ∃ x, productForm gates e g = .ok x := by
  cases (hgates g hg).shaped with
  | mul x y z note =>
    obtain ⟨⟨lhs, e₁⟩, hlhs⟩ := exists_expand hgates hacyclic e x
    obtain ⟨⟨rhs, e₂⟩, hrhs⟩ := exists_expand hgates hacyclic e₁ y
    exact ⟨_, bind_eq_ok.mpr ⟨_, hlhs, bind_eq_ok.mpr ⟨_, hrhs, rfl⟩⟩⟩
  | _ => cases hop

theorem exists_keptForm (hgates : ∀ g ∈ gates, g.WellFormed) (hacyclic : Gate.Acyclic gates)
    (hg : g ∈ gates) (hlinear : g.op.isLinear = true) (e : Expander) :
    ∃ x, keptForm gates e g = .ok x := by
  obtain ⟨z, hz⟩ := (hgates g hg).shaped.outs_of_isLinear hlinear
  obtain ⟨x, hx⟩ := exists_expand hgates hacyclic e z
  rw [keptForm, hz]
  exact ⟨_, bind_eq_ok.mpr ⟨x, hx, rfl⟩⟩

theorem mem_positions {P : Gate → Bool} :
    p ∈ positions gates P ↔ ∃ g, gates[p]? = some g ∧ P g = true := by
  simp only [positions, List.mem_map, List.mem_filter, Prod.exists, List.mem_zipIdx_iff_getElem?]
  constructor
  · rintro ⟨g, _, ⟨hg, hP⟩, rfl⟩
    exact ⟨g, hg, hP⟩
  · rintro ⟨g, hg, hP⟩
    exact ⟨g, p, ⟨hg, hP⟩, rfl⟩

/-- The gates at the given positions get forms, and the wires that are expanded for them are
covered. -/
theorem formsAt_spec {form : Expander → Gate → Except CircuitError (QuadForm × Expander)}
    {expanded : Gate → List Wire} {ps : List Nat} {fs : Forms}
    (hform : ∀ p ∈ ps, ∃ g, gates[p]? = some g ∧ ∀ e f e', Sound gates e →
      form e g = .ok (f, e') →
        Grows gates e e' ∧ (∀ w ∈ expanded g, e'.Covers gates w) ∧ IsForm gates g f)
    (he : Sound gates e) (h : formsAt gates form e ps = .ok (fs, e')) :
    Grows gates e e' ∧ fs.map Prod.fst = ps ∧ ∀ x ∈ fs, ∃ g, gates[x.1]? = some g ∧
      IsForm gates g x.2 ∧ ∀ w ∈ expanded g, e'.Covers gates w := by
  induction ps generalizing e fs with
  | nil =>
    obtain ⟨rfl, rfl⟩ := Prod.mk.inj (Except.ok.inj h)
    exact ⟨.refl he, rfl, nofun⟩
  | cons p ps ih =>
    obtain ⟨⟨g, hg, hspec⟩, hform⟩ := List.forall_mem_cons.mp hform
    rw [formsAt, hg] at h
    obtain ⟨⟨f, e₁⟩, hf, h⟩ := bind_eq_ok.mp h
    obtain ⟨⟨rest, e₂⟩, hrest, h⟩ := bind_eq_ok.mp h
    obtain ⟨rfl, rfl⟩ := Prod.mk.inj (Except.ok.inj h)
    obtain ⟨he₁, hcovers, hisForm⟩ := hspec e f e₁ he hf
    obtain ⟨he₂, hkeys, hforms⟩ := ih hform he₁.sound hrest
    refine ⟨he₁.trans he₂, congrArg (p :: ·) hkeys, List.forall_mem_cons.mpr ⟨?_, hforms⟩⟩
    exact ⟨g, hg, hisForm, fun w hw ↦ he₂.covers (hcovers w hw)⟩

/-- A gate that has a form was expanded. -/
theorem covers_of_forms {expanded : Gate → List Wire} {P : Gate → Bool} {fs : Forms}
    (hkeys : fs.map Prod.fst = positions gates P)
    (hforms : ∀ x ∈ fs, ∃ g, gates[x.1]? = some g ∧ IsForm gates g x.2 ∧
      ∀ w ∈ expanded g, e.Covers gates w)
    (hg : g ∈ gates) (hP : P g = true) : ∀ w ∈ expanded g, e.Covers gates w := by
  obtain ⟨p, hp⟩ := List.mem_iff_getElem?.mp hg
  obtain ⟨x, hx, rfl⟩ := List.mem_map.mp (hkeys ▸ mem_positions.mpr ⟨g, hp, hP⟩)
  obtain ⟨d, hd, -, hcovers⟩ := hforms x hx
  obtain rfl : g = d := Option.some.inj (hp.symm.trans hd)
  exact hcovers

theorem exists_formsAt {form : Expander → Gate → Except CircuitError (QuadForm × Expander)}
    {ps : List Nat} (hform : ∀ p ∈ ps, ∃ g, gates[p]? = some g ∧ ∀ e, ∃ x, form e g = .ok x)
    (e : Expander) : ∃ x, formsAt gates form e ps = .ok x := by
  induction ps generalizing e with
  | nil => exact ⟨_, rfl⟩
  | cons p ps ih =>
    obtain ⟨⟨g, hg, hp⟩, hps⟩ := List.forall_mem_cons.mp hform
    obtain ⟨⟨f, e₁⟩, hf⟩ := hp e
    obtain ⟨x, hx⟩ := ih hps e₁
    rw [formsAt, hg]
    exact ⟨_, bind_eq_ok.mpr ⟨_, hf, bind_eq_ok.mpr ⟨x, hx, rfl⟩⟩⟩

/-! ## The whole step -/

/-- What an expander has covered when the forms are complete: the operands of products and the
outputs of kept gates.  A linear gate is left as it was exactly if the expander does not know it. -/
structure Settles (gates after : List Gate) (e : Expander) : Prop where
  sound : Sound gates e
  muls : ∀ g ∈ gates, g.op = .mul → ∀ w ∈ g.ins, e.Covers gates w
  kept : ∀ g ∈ gates, isKept gates g = true → ∀ w ∈ g.outs, e.Covers gates w
  unknown : ∀ a ∈ after, a.op.isLinear = true → ∃ p, gates[p]? = some a ∧ e.knows p = false
  left : ∀ p g, gates[p]? = some g → g.op.isLinear = true → e.knows p = true ∨ g ∈ after

/-- What synthesis makes of gates without exclusive ors: gates with forms and gates that are
neither products nor kept stand in the places of gates from before, and only linear gates that are
not kept go. -/
structure Synthesized (gates after : List Gate) : Prop where
  outs : (after.flatMap Gate.outs).Sublist (gates.flatMap Gate.outs)
  thinning : ∃ removed, Gate.Thinning Gate.Recast (·.op.isLinear = true) gates after removed
  cases : ∀ a ∈ after, (∃ g ∈ gates, ∃ f, IsForm gates g f ∧ a = formGate g f) ∨
    a ∈ gates ∧ a.op ≠ .mul ∧ isKept gates a = false
  remains : ∀ g ∈ gates, g.op.isLinear = false ∨ isKept gates g = true →
    ∃ a ∈ after, a.outs = g.outs
  settled : ∃ e, Settles gates after e

theorem synthesized?_cases {forms : Forms} {folded : List Nat}
    (h : synthesized? forms folded g p = some a) :
    (∃ f, (p, f) ∈ forms ∧ a = formGate g f) ∨ p ∉ forms.map Prod.fst ∧ a = g := by
  unfold synthesized? at h
  split_ifs at h
  split at h
  · rename_i f hf
    obtain ⟨l₁, l₂, rfl, -⟩ := List.lookup_eq_some_iff.mp hf
    exact .inl ⟨f, List.mem_append_right _ List.mem_cons_self, (Option.some.inj h).symm⟩
  · rename_i hnone
    refine .inr ⟨fun hp ↦ ?_, (Option.some.inj h).symm⟩
    obtain ⟨x, hx, rfl⟩ := List.mem_map.mp hp
    simpa using List.lookup_eq_none_iff.mp hnone x hx

theorem recast_of_synthesized? {forms : Forms} {folded : List Nat}
    (h : synthesized? forms folded g p = some a) : g.Recast a := by
  rcases synthesized?_cases h with ⟨f, -, rfl⟩ | ⟨-, rfl⟩
  · exact ⟨rfl, .inr ⟨f, rfl⟩⟩
  · exact ⟨rfl, .inl rfl⟩

/-- Only what is folded has no gate in its place. -/
theorem synthesized?_eq_none {forms : Forms} {folded : List Nat} :
    synthesized? forms folded g p = none ↔ p ∈ folded := by
  unfold synthesized?
  split_ifs with hfolded
  · exact ⟨fun _ ↦ hfolded, fun _ ↦ rfl⟩
  · refine ⟨fun h ↦ ?_, fun h ↦ absurd h hfolded⟩
    split at h <;> cases h

section

variable {forms : Forms} {folded : List Nat}

/-- What is put in the place of a gate is there after synthesis. -/
theorem exists_synthesized? (forms : Forms) (hg : gates[p]? = some g) (hfolded : p ∉ folded) :
    ∃ a ∈ gates.zipIdx.filterMap fun (g, p) ↦ synthesized? forms folded g p,
      synthesized? forms folded g p = some a := by
  have hne : synthesized? forms folded g p ≠ none := mt synthesized?_eq_none.mp hfolded
  obtain ⟨a, ha⟩ := Option.ne_none_iff_exists'.mp hne
  exact ⟨a, List.mem_filterMap.mpr ⟨(g, p), List.mem_zipIdx_iff_getElem?.mpr hg, ha⟩, ha⟩

/-- What is there after synthesis is in the place of a gate. -/
theorem exists_of_mem_synthesized
    (ha : a ∈ gates.zipIdx.filterMap fun (g, p) ↦ synthesized? forms folded g p) :
    ∃ g p, gates[p]? = some g ∧ synthesized? forms folded g p = some a := by
  obtain ⟨⟨g, p⟩, hmem, h⟩ := List.mem_filterMap.mp ha
  exact ⟨g, p, List.mem_zipIdx_iff_getElem?.mp hmem, h⟩

variable (hkeys : ∀ p g, gates[p]? = some g →
    (p ∈ forms.map Prod.fst ↔ g.op = .mul ∨ isKept gates g = true))
  (hfolded : ∀ p, p ∈ folded ↔ p ∈ e.visited ∧ p ∉ positions gates (isKept gates))
  (he : Grows gates {} e)
  (hkept : ∀ g ∈ gates, isKept gates g = true → ∀ w ∈ g.outs, e.Covers gates w)
include hkeys hfolded he hkept

theorem settles_of_forms (hgates : ∀ g ∈ gates, g.WellFormed)
    (hnodup : (gates.flatMap Gate.outs).Nodup)
    (hmuls : ∀ g ∈ gates, g.op = .mul → ∀ w ∈ g.ins, e.Covers gates w) :
    Settles gates (gates.zipIdx.filterMap fun (g, p) ↦ synthesized? forms folded g p) e where
  sound := he.sound
  muls := hmuls
  kept := hkept
  unknown := by
    intro a ha hlinear
    obtain ⟨g, p, hg, h⟩ := exists_of_mem_synthesized ha
    rcases synthesized?_cases h with ⟨f, -, rfl⟩ | ⟨hkey, rfl⟩
    · cases hlinear
    · refine ⟨p, hg, Bool.eq_false_iff.mpr fun hknows ↦ ?_⟩
      have hnot : p ∉ positions gates (isKept gates) := fun hk ↦ by
        obtain ⟨d, hd, hk⟩ := mem_positions.mp hk
        exact hkey ((hkeys p d hd).mpr (.inr hk))
      have hfold := (hfolded p).mpr ⟨he.sound.marked p hknows, hnot⟩
      cases (synthesized?_eq_none.mpr hfold).symm.trans h
  left := by
    intro p g hp hlinear
    by_cases hfold : p ∈ folded
    · exact .inl ((he.fresh p ((hfolded p).mp hfold).1).resolve_left List.not_mem_nil)
    · obtain ⟨a, ha, h⟩ := exists_synthesized? forms hp hfold
      rcases synthesized?_cases h with ⟨f, hf, -⟩ | ⟨-, rfl⟩
      · -- A linear gate with a form is kept, so its output was expanded.
        have hk := ((hkeys p g hp).mp (List.mem_map_of_mem hf)).resolve_left fun hop ↦ by
          rw [hop] at hlinear
          cases hlinear
        have hg := List.mem_of_getElem? hp
        obtain ⟨z, hz⟩ := (hgates g hg).shaped.outs_of_isLinear hlinear
        have hzg : z ∈ g.outs := hz ▸ List.mem_singleton_self z
        exact .inl (hkept g hg hk z hzg p (exists_linearProducer? hnodup hp hlinear hzg))
      · exact .inr ha

theorem synthesized_of_forms (hgates : ∀ g ∈ gates, g.WellFormed)
    (hnodup : (gates.flatMap Gate.outs).Nodup)
    (hforms : ∀ x ∈ forms, ∃ g, gates[x.1]? = some g ∧ IsForm gates g x.2)
    (hmuls : ∀ g ∈ gates, g.op = .mul → ∀ w ∈ g.ins, e.Covers gates w) :
    Synthesized gates (gates.zipIdx.filterMap fun (g, p) ↦ synthesized? forms folded g p) where
  outs := by
    have hzip : gates.zipIdx.flatMap (fun x ↦ x.1.outs) = gates.flatMap Gate.outs := by
      rw [← List.flatMap_map Prod.fst Gate.outs, List.zipIdx_map_fst]
    rw [List.filterMap_eq_flatMap_toList, List.flatMap_assoc, ← hzip]
    refine List.Sublist.flatMap_right _ fun ⟨g, p⟩ _ ↦ ?_
    dsimp only
    cases ha : synthesized? forms folded g p with
    | none => exact List.nil_sublist _
    | some a => rw [Option.toList_some, List.flatMap_singleton, (recast_of_synthesized? ha).1]
  thinning := by
    nth_rewrite 1 [← List.zipIdx_map_fst 0 gates]
    refine ⟨_, .of_filterMap (fun x _ a ha ↦ recast_of_synthesized? ha) ?_⟩
    rintro ⟨g, p⟩ hmem hnone
    have hvisited := ((hfolded p).mp (synthesized?_eq_none.mp hnone)).1
    obtain ⟨d, hd, hlinear⟩ := he.sound.visited p hvisited
    obtain rfl : g = d := Option.some.inj ((List.mem_zipIdx_iff_getElem?.mp hmem).symm.trans hd)
    exact hlinear
  cases := by
    intro a ha
    obtain ⟨g, p, hg, h⟩ := exists_of_mem_synthesized ha
    rcases synthesized?_cases h with ⟨f, hf, rfl⟩ | ⟨hkey, rfl⟩
    · obtain ⟨d, hd, hform⟩ := hforms (p, f) hf
      obtain rfl : g = d := Option.some.inj (hg.symm.trans hd)
      exact .inl ⟨g, List.mem_of_getElem? hg, f, hform, rfl⟩
    · refine .inr ⟨List.mem_of_getElem? hg, fun hop ↦ hkey ((hkeys p a hg).mpr (.inl hop)), ?_⟩
      exact Bool.eq_false_iff.mpr fun hkept ↦ hkey ((hkeys p a hg).mpr (.inr hkept))
  remains := by
    intro g hg hstays
    obtain ⟨p, hp⟩ := List.mem_iff_getElem?.mp hg
    have hfold : p ∉ folded := by
      intro hmem
      obtain ⟨hvisited, hkept⟩ := (hfolded p).mp hmem
      obtain ⟨d, hd, hlinear'⟩ := he.sound.visited p hvisited
      obtain rfl : g = d := Option.some.inj (hp.symm.trans hd)
      rcases hstays with hlinear | hk
      · cases hlinear.symm.trans hlinear'
      · exact hkept (mem_positions.mpr ⟨g, hp, hk⟩)
    obtain ⟨a, ha, h⟩ := exists_synthesized? forms hp hfold
    exact ⟨a, ha, (recast_of_synthesized? h).1⟩
  settled := ⟨e, settles_of_forms hkeys hfolded he hkept hgates hnodup hmuls⟩

end

section

variable {c d : Circuit} {n : Nat}

theorem synthesize_spec (hc : c.WellFormed) (h : c.synthesize = .ok (d, n)) :
    d.inputs = c.inputs ∧ d.outputs = c.outputs ∧
      ∃ gates, c.gates.mapM synthesizeXor = .ok gates ∧ Synthesized gates d.gates := by
  obtain ⟨gates, hxor, h⟩ := bind_eq_ok.mp h
  obtain ⟨⟨mulForms, e₁⟩, hmul, h⟩ := bind_eq_ok.mp h
  obtain ⟨⟨keptForms, e₂⟩, hkept, h⟩ := bind_eq_ok.mp h
  obtain ⟨rfl, -⟩ := Prod.mk.inj (Except.ok.inj h)
  obtain ⟨houts, hspec⟩ := mapM_synthesizeXor hc.gates hxor
  have hgates : ∀ g ∈ gates, g.WellFormed := fun g hg ↦ (hspec g hg).1
  have hnodup : (gates.flatMap Gate.outs).Nodup := houts ▸ (List.nodup_append.mp hc.nodup).2.1
  have hproduct : ∀ p ∈ positions gates (·.op == .mul), ∃ g, gates[p]? = some g ∧
      ∀ e f e', Sound gates e → productForm gates e g = .ok (f, e') →
        Grows gates e e' ∧ (∀ w ∈ g.ins, e'.Covers gates w) ∧ IsForm gates g f := by
    intro p hp
    obtain ⟨g, hg, hop⟩ := mem_positions.mp hp
    exact ⟨g, hg, fun e f e' he hf ↦ productForm_spec hgates hnodup (List.mem_of_getElem? hg)
      (by simpa using hop) he hf⟩
  have hlinear : ∀ p ∈ positions gates (isKept gates), ∃ g, gates[p]? = some g ∧
      ∀ e f e', Sound gates e → keptForm gates e g = .ok (f, e') →
        Grows gates e e' ∧ (∀ w ∈ g.outs, e'.Covers gates w) ∧ IsForm gates g f := by
    intro p hp
    obtain ⟨g, hg, hk⟩ := mem_positions.mp hp
    exact ⟨g, hg, fun e f e' he hf ↦ keptForm_spec hgates hnodup (List.mem_of_getElem? hg)
      ((Bool.and_eq_true _ _).mp hk).1 he hf⟩
  obtain ⟨he₁, hkeys, hforms⟩ := formsAt_spec hproduct sound_empty hmul
  obtain ⟨he₂, hkeys', hforms'⟩ := formsAt_spec hlinear he₁.sound hkept
  have hmuls : ∀ g ∈ gates, g.op = .mul → ∀ w ∈ g.ins, e₂.Covers gates w := fun g hg hop w hw ↦
    he₂.covers (covers_of_forms hkeys hforms hg (by simpa using hop) w hw)
  have hkepts : ∀ g ∈ gates, isKept gates g = true → ∀ w ∈ g.outs, e₂.Covers gates w :=
    fun g hg hk ↦ covers_of_forms hkeys' hforms' hg hk
  have hkeys_iff : ∀ p g, gates[p]? = some g →
      (p ∈ (mulForms ++ keptForms).map Prod.fst ↔ g.op = .mul ∨ isKept gates g = true) := by
    intro p g hg
    rw [List.map_append, hkeys, hkeys', List.mem_append, mem_positions, mem_positions]
    simp only [hg, Option.some.injEq, exists_eq_left', beq_iff_eq]
  have hall : ∀ x ∈ mulForms ++ keptForms, ∃ g, gates[x.1]? = some g ∧ IsForm gates g x.2 := by
    intro x hx
    rcases List.mem_append.mp hx with hx | hx
    · obtain ⟨g, hg, hform, -⟩ := hforms x hx
      exact ⟨g, hg, hform⟩
    · obtain ⟨g, hg, hform, -⟩ := hforms' x hx
      exact ⟨g, hg, hform⟩
  refine ⟨rfl, rfl, gates, hxor, synthesized_of_forms hkeys_iff (fun p ↦ ?_) (he₁.trans he₂) hkepts
    hgates hnodup hall hmuls⟩
  rw [List.mem_filter, decide_eq_true_iff]

theorem inputWires_synthesize (hc : c.WellFormed) (h : c.synthesize = .ok (d, n)) :
    d.inputWires = c.inputWires := by
  rw [inputWires, (synthesize_spec hc h).1, inputWires]

/-- Synthesis keeps circuits well formed, if declared outputs are not driven by linear gates. -/
theorem WellFormed.synthesize (hc : c.WellFormed) (h : c.synthesize = .ok (d, n))
    (hlinear : c.LinearInside) : d.WellFormed := by
  obtain ⟨-, houtputs, gates, hxor, hsyn⟩ := synthesize_spec hc h
  obtain ⟨houts, hspec⟩ := mapM_synthesizeXor hc.gates hxor
  have hins := inputWires_synthesize hc h
  refine ⟨fun a ha ↦ ?_, ?_, fun w hw ↦ ?_⟩
  · rcases hsyn.cases a ha with ⟨g, -, f, hform, rfl⟩ | ⟨ha, -⟩
    · exact hform.wellFormed
    · exact (hspec a ha).1
  · refine hc.nodup.sublist ?_
    rw [driven, driven, hins, ← houts]
    exact hsyn.outs.append_left _
  · rw [houtputs] at hw
    have hdriven := hc.outputs w hw
    rw [driven, List.mem_append, ← houts] at hdriven
    rw [driven, List.mem_append, hins]
    refine hdriven.imp_right fun hmem ↦ ?_
    obtain ⟨g, hg, hwg⟩ := List.mem_flatMap.mp hmem
    have hg' : g.op.isLinear = false := Bool.eq_false_iff.mpr fun hl ↦
      hlinear g (mem_of_isLinear (hspec g hg).2.2.2 hl) hl w hwg hw
    obtain ⟨a, ha, hao⟩ := hsyn.remains g hg (.inl hg')
    exact List.mem_flatMap.mpr ⟨a, ha, hao ▸ hwg⟩

theorem Relates.synthesize {ins outs : List Scalar} (hrel : c.Relates ins outs) (hc : c.WellFormed)
    (h : c.synthesize = .ok (d, n)) : d.Relates ins outs := by
  obtain ⟨-, houtputs, gates, hxor, hsyn⟩ := synthesize_spec hc h
  obtain ⟨-, hspec⟩ := mapM_synthesizeXor hc.gates hxor
  obtain ⟨r, hr, rfl, rfl⟩ := hrel
  have hgates : ∀ g ∈ gates, g.Holds r := fun g hg ↦ (hspec g hg).2.2.1 r hr
  refine ⟨r, fun a ha ↦ ?_, by rw [inputWires_synthesize hc h], by rw [houtputs]⟩
  rcases hsyn.cases a ha with ⟨g, hg, f, hform, rfl⟩ | ⟨ha, -⟩
  · exact hform.holds hgates hg
  · exact hgates a ha

/-! ## Acyclic circuits -/

theorem WellFormed.exists_synthesize (hc : c.WellFormed) (hacyclic : c.Acyclic) :
    ∃ d n, c.synthesize = .ok (d, n) := by
  obtain ⟨gates, hxor⟩ := exists_mapM_synthesizeXor hc.gates
  obtain ⟨-, hspec⟩ := mapM_synthesizeXor hc.gates hxor
  have hgates : ∀ g ∈ gates, g.WellFormed := fun g hg ↦ (hspec g hg).1
  have hacyclic' := hacyclic.of_map_wires (map_wires_synthesizeXor hxor)
  have hproduct : ∀ p ∈ positions gates (·.op == .mul), ∃ g, gates[p]? = some g ∧
      ∀ e, ∃ x, productForm gates e g = .ok x := by
    intro p hp
    obtain ⟨g, hg, hop⟩ := mem_positions.mp hp
    exact ⟨g, hg, exists_productForm hgates hacyclic' (List.mem_of_getElem? hg) (by simpa using hop)⟩
  have hlinear : ∀ p ∈ positions gates (isKept gates), ∃ g, gates[p]? = some g ∧
      ∀ e, ∃ x, keptForm gates e g = .ok x := by
    intro p hp
    obtain ⟨g, hg, hk⟩ := mem_positions.mp hp
    exact ⟨g, hg, exists_keptForm hgates hacyclic' (List.mem_of_getElem? hg)
      ((Bool.and_eq_true _ _).mp hk).1⟩
  obtain ⟨⟨mulForms, e₁⟩, hmul⟩ := exists_formsAt hproduct {}
  obtain ⟨⟨keptForms, e₂⟩, hkept⟩ := exists_formsAt hlinear e₁
  exact ⟨_, _, bind_eq_ok.mpr ⟨gates, hxor, bind_eq_ok.mpr ⟨_, hmul,
    bind_eq_ok.mpr ⟨_, hkept, rfl⟩⟩⟩⟩

theorem Acyclic.synthesize (hacyclic : c.Acyclic) (hc : c.WellFormed)
    (h : c.synthesize = .ok (d, n)) : d.Acyclic := by
  obtain ⟨-, -, gates, hxor, hsyn⟩ := synthesize_spec hc h
  obtain ⟨ρ, hρ⟩ := hacyclic.of_map_wires (map_wires_synthesizeXor hxor)
  refine ⟨ρ, fun a ha ↦ ?_⟩
  rcases hsyn.cases a ha with ⟨g, -, f, hform, rfl⟩ | ⟨ha, -⟩
  · exact fun v hv w hw ↦ Gate.lt_of_feeds hρ (hform.feeds v hv w hw)
  · exact hρ a ha

/-! ## Chains of linear gates -/

/-- A chain of linear gates leads from the outputs of the gate to a gate of another kind. -/
inductive LeadsOut (gates : List Gate) : Gate → Prop
  /-- A gate of another kind reads an output. -/
  | read {g a : Gate} {w : Wire} (ha : a ∈ gates) (hother : a.op.isLinear = false)
      (hw : w ∈ g.outs) (hwa : w ∈ a.ins) : LeadsOut gates g
  /-- A linear gate from which the chain goes on reads an output. -/
  | pass {g a : Gate} {w : Wire} (ha : a ∈ gates) (hlinear : a.op.isLinear = true)
      (hw : w ∈ g.outs) (hwa : w ∈ a.ins) (hnext : LeadsOut gates a) : LeadsOut gates g

/-- Among acyclic gates a chain goes on until it leaves the linear gates. -/
theorem leadsOut_of_acyclic (hacyclic : Gate.Acyclic gates)
    (hread : ∀ g ∈ gates, g.op.isLinear = true → ∃ w ∈ g.outs, ∃ a ∈ gates, w ∈ a.ins) :
    ∀ g ∈ gates, g.op.isLinear = true → LeadsOut gates g := by
  refine hacyclic.induction_back fun g hg ih hlinear ↦ ?_
  obtain ⟨w, hw, a, ha, hwa⟩ := hread g hg hlinear
  cases hal : a.op.isLinear with
  | true => exact .pass ha hal hw hwa (ih a ha w hw hwa hal)
  | false => exact .read ha hal hw hwa

/-- A gate stands in the place of each gate from before, the gate itself if it is linear. -/
theorem exists_mem_of_mapM_synthesizeXor {old : List Gate} (h : old.mapM synthesizeXor = .ok gates)
    (hg : g ∈ old) :
    ∃ a ∈ gates, a.ins = g.ins ∧ a.op.isLinear = g.op.isLinear ∧
      (g.op.isLinear = true → a = g) := by
  replace h := mapM_eq_ok.mp h
  induction h with
  | nil => cases hg
  | @cons d a rest as hda _ ih =>
    rcases List.mem_cons.mp hg with rfl | hg
    · refine ⟨a, List.mem_cons_self, (wires_synthesizeXor hda).1, ?_⟩
      unfold synthesizeXor at hda
      split at hda
      · rename_i hop _
        obtain rfl := Except.ok.inj hda
        rw [hop]
        exact ⟨rfl, nofun⟩
      · cases hda
      · obtain rfl := Except.ok.inj hda
        exact ⟨rfl, fun _ ↦ rfl⟩
    · obtain ⟨b, hb, hspec⟩ := ih hg
      exact ⟨b, List.mem_cons_of_mem _ hb, hspec⟩

/-- Giving exclusive ors their forms breaks no chain. -/
theorem LeadsOut.synthesizeXor {old : List Gate} (hchain : LeadsOut old g)
    (h : old.mapM synthesizeXor = .ok gates) : LeadsOut gates g := by
  induction hchain with
  | read ha hother hw hwa =>
    obtain ⟨b, hb, hins, hkind, -⟩ := exists_mem_of_mapM_synthesizeXor h ha
    exact .read hb (hkind.trans hother) hw (hins ▸ hwa)
  | pass ha hlinear hw hwa _ ih =>
    obtain ⟨b, hb, -, -, hsame⟩ := exists_mem_of_mapM_synthesizeXor h ha
    exact .pass (hsame hlinear ▸ hb) hlinear hw hwa ih

/-- If a chain leads out from every linear gate then none is left. -/
theorem Synthesized.not_isLinear {after : List Gate} (hsyn : Synthesized gates after)
    (hgates : ∀ g ∈ gates, g.WellFormed) (hnodup : (gates.flatMap Gate.outs).Nodup)
    (hleads : ∀ g ∈ gates, g.op.isLinear = true → LeadsOut gates g) :
    ∀ a ∈ after, a.op.isLinear = false := by
  obtain ⟨e, he⟩ := hsyn.settled
  -- From the end of the chain: with the readers of a linear gate, the gate itself is expanded.
  have hcovers {g : Gate} (hchain : LeadsOut gates g) :
      g ∈ gates → g.op.isLinear = true → ∀ w ∈ g.outs, e.Covers gates w := by
    induction hchain with
    | @read g a w ha hother hw hwa =>
      intro hg hlinear
      obtain ⟨z, hz⟩ := (hgates g hg).shaped.outs_of_isLinear hlinear
      obtain rfl : w = z := List.mem_singleton.mp (hz ▸ hw)
      rw [hz]
      refine List.forall_mem_singleton.mpr ?_
      by_cases hmul : a.op = .mul
      · exact he.muls a ha hmul w hwa
      · refine he.kept g hg ?_ w hw
        rw [isKept, hlinear, Bool.true_and, List.any_eq_true]
        refine ⟨w, hw, List.any_eq_true.mpr ⟨a, ha, ?_⟩⟩
        simp [hwa, hother, hmul]
    | @pass g a w ha hal hw hwa _ ih =>
      intro hg hlinear
      obtain ⟨z, hz⟩ := (hgates g hg).shaped.outs_of_isLinear hlinear
      obtain rfl : w = z := List.mem_singleton.mp (hz ▸ hw)
      rw [hz]
      refine List.forall_mem_singleton.mpr ?_
      obtain ⟨p, hp⟩ := List.mem_iff_getElem?.mp ha
      obtain ⟨u, hu⟩ := (hgates a ha).shaped.outs_of_isLinear hal
      have hmem : u ∈ a.outs := hu ▸ List.mem_singleton_self u
      have hknows := ih ha hal u hmem p (exists_linearProducer? hnodup hp hal hmem)
      exact he.sound.closed hknows hp w hwa
  intro a ha
  refine Bool.eq_false_iff.mpr fun hlinear ↦ ?_
  obtain ⟨p, hp, hunknown⟩ := he.unknown a ha hlinear
  have hmem : a ∈ gates := List.mem_of_getElem? hp
  obtain ⟨z, hz⟩ := (hgates a hmem).shaped.outs_of_isLinear hlinear
  have hza : z ∈ a.outs := hz ▸ List.mem_singleton_self z
  have hknows := hcovers (hleads a hmem hlinear) hmem hlinear z hza p
    (exists_linearProducer? hnodup hp hlinear hza)
  rw [hunknown] at hknows
  cases hknows

/-- Every linear gate of an acyclic circuit whose gates are all needed has a chain that leads out,
if declared outputs are not driven by linear gates. -/
theorem Acyclic.leadsOut (hacyclic : c.Acyclic) (hlinear : c.LinearInside) (hlive : c.Live) :
    ∀ g ∈ c.gates, g.op.isLinear = true → LeadsOut c.gates g := by
  refine leadsOut_of_acyclic hacyclic fun g hg hl ↦ ?_
  obtain ⟨w, hw, hout | hreader⟩ := hlive g hg
  · exact absurd hout (hlinear g hg hl w hw)
  · exact ⟨w, hw, hreader⟩

/-- Synthesis leaves no linear gate and gives a valid circuit, if declared outputs are not driven by
linear gates and a chain leads out from every linear gate. -/
theorem Valid.synthesize (hc : c.Valid) (hlinear : c.LinearInside)
    (hleads : ∀ g ∈ c.gates, g.op.isLinear = true → LeadsOut c.gates g)
    (h : c.synthesize = .ok (d, n)) : d.Valid ∧ ∀ a ∈ d.gates, a.op.isLinear = false := by
  obtain ⟨hinputs, -, gates, hxor, hsyn⟩ := synthesize_spec hc.toWellFormed h
  obtain ⟨houts, hspec⟩ := mapM_synthesizeXor hc.gates hxor
  have hwires := map_wires_synthesizeXor hxor
  have hgates : ∀ g ∈ gates, g.WellFormed := fun g hg ↦ (hspec g hg).1
  have hnodup : (gates.flatMap Gate.outs).Nodup := houts ▸ (List.nodup_append.mp hc.nodup).2.1
  have hleft := hsyn.not_isLinear hgates hnodup fun g hg hl ↦
    (hleads g (mem_of_isLinear (hspec g hg).2.2.2 hl) hl).synthesizeXor hxor
  refine ⟨⟨hc.toWellFormed.synthesize h hlinear, fun a ha w hw ↦ ?_⟩, hleft⟩
  -- What a gate reads is read before synthesis, and what drives it is not folded.
  obtain ⟨hreader, hstays⟩ : (∃ b ∈ gates, w ∈ b.ins) ∧ ∀ g ∈ gates, w ∈ g.outs →
      g.op.isLinear = false ∨ isKept gates g = true := by
    rcases hsyn.cases a ha with ⟨g, hg, f, hform, rfl⟩ | ⟨hmem, hmul, -⟩
    · obtain ⟨z, hz⟩ := hform.outs
      refine ⟨Gate.exists_reader_of_feeds (hform.feeds w hw z (hz ▸ List.mem_singleton_self z)), ?_⟩
      exact fun g hg hwg ↦ .inl (Bool.eq_false_iff.mpr fun hl ↦ hform.leaves w hw g hg hl hwg)
    · refine ⟨⟨a, hmem, hw⟩, fun g hg hwg ↦ ?_⟩
      cases hl : g.op.isLinear with
      | false => exact .inl rfl
      | true =>
        refine .inr ?_
        rw [isKept, hl, Bool.true_and, List.any_eq_true]
        refine ⟨w, hwg, List.any_eq_true.mpr ⟨a, hmem, ?_⟩⟩
        simp [hw, hleft a ha, hmul]
  have hdriven : w ∈ c.driven := by
    obtain ⟨g, hg, hwg⟩ := exists_reader_of_map_wires hwires hreader
    exact hc.reads g hg w hwg
  rw [driven, List.mem_append, ← houts] at hdriven
  rw [driven, List.mem_append, inputWires_synthesize hc.toWellFormed h]
  refine hdriven.imp_right fun hmem ↦ ?_
  obtain ⟨g, hg, hwg⟩ := List.mem_flatMap.mp hmem
  obtain ⟨a', ha', houts'⟩ := hsyn.remains g hg (hstays g hg hwg)
  exact List.mem_flatMap.mpr ⟨a', ha', houts' ▸ hwg⟩

end

/-! ## Linear gates that are left -/

/-- The gates are linear or of canonical kind; linear gates drive no declared output and are read
by linear gates only. -/
structure Reduced (c : Circuit) : Prop where
  kind : ∀ g ∈ c.gates, g.op.isLinear = true ∨ g.op.IsCanonical
  outputs : c.LinearInside
  readers : ∀ g ∈ c.gates, g.op.isLinear = true → ∀ w ∈ g.outs, ∀ a ∈ c.gates, w ∈ a.ins →
    a.op.isLinear = true

theorem Reduced.synthesize {c d : Circuit} {n : Nat} (hc : c.WellFormed)
    (h : c.synthesize = .ok (d, n)) (hpack : ∀ g ∈ c.gates, g.op ≠ .pack)
    (hlinear : c.LinearInside) : d.Reduced := by
  obtain ⟨-, houtputs, gates, hxor, hsyn⟩ := synthesize_spec hc h
  obtain ⟨-, hspec⟩ := mapM_synthesizeXor hc.gates hxor
  -- A linear gate that is left was there before and is not kept.
  have hleft {a : Gate} (ha : a ∈ d.gates) (hl : a.op.isLinear = true) :
      a ∈ gates ∧ isKept gates a = false := by
    rcases hsyn.cases a ha with ⟨g, -, f, -, rfl⟩ | ⟨hmem, -, hkept⟩
    · cases hl
    · exact ⟨hmem, hkept⟩
  refine ⟨fun a ha ↦ ?_, fun a ha hl w hw ↦ ?_, fun a ha hl w hw b hb hwb ↦ ?_⟩
  · rcases hsyn.cases a ha with ⟨g, -, f, -, rfl⟩ | ⟨hmem, hmul, -⟩
    · exact .inr (.inl ⟨f, rfl⟩)
    · have hxorOp := (hspec a hmem).2.1
      cases hop : a.op with
      | add => exact .inl rfl
      | sub => exact .inl rfl
      | constMul k => exact .inl rfl
      | mul => exact absurd hop hmul
      | xor => exact absurd hop hxorOp
      | split => exact .inr (.inr (.inl rfl))
      | pack =>
        rcases (hspec a hmem).2.2.2 with hold | ⟨f, hf⟩
        · exact absurd hop (hpack a hold)
        · cases hop.symm.trans hf
      | zerop => exact .inr (.inr (.inr rfl))
      | quadratic f => exact .inr (.inl ⟨f, rfl⟩)
  · rw [houtputs]
    exact hlinear a (mem_of_isLinear (hspec a (hleft ha hl).1).2.2.2 hl) hl w hw
  · obtain ⟨hmem, hkept⟩ := hleft ha hl
    rcases hsyn.cases b hb with ⟨g, -, f, hform, rfl⟩ | ⟨hbmem, hbmul, -⟩
    · exact absurd hw (hform.leaves w hwb a hmem hl)
    · by_contra hbl
      rw [isKept, hl, Bool.true_and, List.any_eq_false] at hkept
      refine hkept w hw (List.any_eq_true.mpr ⟨b, hbmem, ?_⟩)
      simpa [hwb, hbmul] using hbl

end Circuit

end Quadratize
