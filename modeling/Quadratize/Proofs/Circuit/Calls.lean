import Quadratize.Proofs.Circuit.Walk

/-!
# Calls of one expander

One expander answers calls for the expansions of wires one after the other, and keeps what it has
found.  Each answer depends on the wire alone: it is the sum that unfolding the linear gates behind
the wire gives, or a failure if one of these gates depends on itself.
-/

namespace Quadratize.Expander

variable {gates : List Gate} {w : Wire} {p : Nat} {a b : Affine Wire} {e e' : Expander}

/-! ## Gates and sums that belong to a wire -/

theorem eq_of_outs {g d : Gate} (hnodup : (gates.flatMap Gate.outs).Nodup) (hg : g ∈ gates)
    (hd : d ∈ gates) (hgw : g.outs = [w]) (hdw : d.outs = [w]) : g = d :=
  Gate.eq_of_mem_outs hnodup hg hd (hgw ▸ List.mem_singleton_self w)
    (hdw ▸ List.mem_singleton_self w)

/-- No wire is driven twice, so that a wire is unfolded in one way. -/
theorem Unfolds.unique (hnodup : (gates.flatMap Gate.outs).Nodup) (h : Unfolds gates w a)
    (h' : Unfolds gates w b) : a = b := by
  induction h generalizing b with
  | leaf hleaf =>
    cases h' with
    | leaf => rfl
    | add hg | sub hg | constMul hg => exact absurd (List.mem_singleton_self _) (hleaf _ hg rfl)
  | add hg _ _ ihx ihy =>
    cases h' with
    | leaf hleaf => exact absurd (List.mem_singleton_self _) (hleaf _ hg rfl)
    | add hg' hx hy =>
      cases eq_of_outs hnodup hg hg' rfl rfl
      rw [ihx hx, ihy hy]
    | sub hg' | constMul hg' => cases eq_of_outs hnodup hg hg' rfl rfl
  | sub hg _ _ ihx ihy =>
    cases h' with
    | leaf hleaf => exact absurd (List.mem_singleton_self _) (hleaf _ hg rfl)
    | sub hg' hx hy =>
      cases eq_of_outs hnodup hg hg' rfl rfl
      rw [ihx hx, ihy hy]
    | add hg' | constMul hg' => cases eq_of_outs hnodup hg hg' rfl rfl
  | constMul hg _ ihx =>
    cases h' with
    | leaf hleaf => exact absurd (List.mem_singleton_self _) (hleaf _ hg rfl)
    | constMul hg' hx =>
      cases eq_of_outs hnodup hg hg' rfl rfl
      rw [ihx hx]
    | add hg' | sub hg' => cases eq_of_outs hnodup hg hg' rfl rfl

/-- If the gate that drives a wire is known then all gates behind the wire are. -/
theorem Sound.knows_of_behind {g : Gate} (he : Sound gates e)
    (hnodup : (gates.flatMap Gate.outs).Nodup) (h : Behind gates g w) (hw : e.Covers gates w)
    (hp : gates[p]? = some g) : e.knows p = true := by
  induction h with
  | drives _ hlinear hout => exact hw p (exists_linearProducer? hnodup hp hlinear hout)
  | reads hd hlinear hout hv _ ih =>
    obtain ⟨q, hq⟩ := List.mem_iff_getElem?.mp hd
    exact ih (he.closed (hw q (exists_linearProducer? hnodup hq hlinear hout)) hq _ hv)

/-! ## Sequences of calls -/

/-- The answers to calls one after the other, and the expander after them. -/
def answers (gates : List Gate) :
    Expander → List Wire → List (Except CircuitError (Affine Wire)) × Expander
  | e, [] => ([], e)
  | e, w :: ws =>
    let (x, e) := e.answer gates w
    let (xs, e) := answers gates e ws
    (x :: xs, e)

theorem answers_cons (w : Wire) (ws : List Wire) : answers gates e (w :: ws) =
    ((e.answer gates w).1 :: (answers gates (e.answer gates w).2 ws).1,
      (answers gates (e.answer gates w).2 ws).2) := rfl

/-- The right answer for a wire. -/
structure IsAnswer (gates : List Gate) (w : Wire) (x : Except CircuitError (Affine Wire)) :
    Prop where
  ok_iff : ∀ a, x = .ok a ↔ Unfolds gates w a
  vars : ∀ a, x = .ok a → ∀ v ∈ a.vars, Leaf gates v
  error_iff : (∃ err, x = .error err) ↔ ∃ g, Behind gates g w ∧ DependsOn gates g g
  cause : ∀ err, x = .error err →
    ∃ g, err = .malformed (.selfDependent g) ∧ Behind gates g w ∧ DependsOn gates g g

section

variable (hgates : ∀ g ∈ gates, g.Shaped) (hnodup : (gates.flatMap Gate.outs).Nodup)
  (he : Sound gates e)
include hgates hnodup he

theorem Sound.isAnswer (w : Wire) : IsAnswer gates w (e.answer gates w).1 := by
  rcases h : e.answer gates w with ⟨x, e'⟩
  cases x with
  | ok a =>
    obtain ⟨-, -, hunfolds, -⟩ := answer_spec hgates hnodup he h
    refine ⟨fun b ↦ ⟨fun hb ↦ Except.ok.inj hb ▸ hunfolds, fun hb ↦ ?_⟩, fun b hb ↦ ?_,
      ⟨nofun, ?_⟩, nofun⟩
    · exact congrArg _ (hunfolds.unique hnodup hb)
    · exact Except.ok.inj hb ▸ hunfolds.expands.vars
    · rintro ⟨g, hbehind, hself⟩
      exact absurd hself (hunfolds.not_dependsOn hnodup g hbehind)
  | error err =>
    obtain ⟨g, herr, hbehind, hself⟩ := answer_eq_error hgates h
    refine ⟨fun a ↦ ⟨nofun, fun ha ↦ ?_⟩, nofun,
      ⟨fun _ ↦ ⟨g, hbehind, hself⟩, fun _ ↦ ⟨err, rfl⟩⟩, ?_⟩
    · exact absurd hself (ha.not_dependsOn hnodup g hbehind)
    · rintro err' h'
      exact ⟨g, (Except.error.inj h').symm.trans herr, hbehind, hself⟩

/-- A call that succeeds visits exactly the gates behind the wire. -/
theorem Sound.mem_visited_answer (h : e.answer gates w = (.ok a, e')) :
    p ∈ e'.visited ↔ p ∈ e.visited ∨ ∃ g, gates[p]? = some g ∧ Behind gates g w := by
  obtain ⟨hgrows, hcovers, -, hvisited⟩ := answer_spec hgates hnodup he h
  refine ⟨hvisited p, ?_⟩
  rintro (hp | ⟨g, hp, hbehind⟩)
  · exact hgrows.visited hp
  · exact hgrows.sound.marked p (hgrows.sound.knows_of_behind hnodup hbehind hcovers hp)

theorem Sound.answers (ws : List Wire) :
    List.Forall₂ (IsAnswer gates) ws (e.answers gates ws).1 ∧
      ((∀ x ∈ (e.answers gates ws).1, ∃ a, x = .ok a) → ∀ p, p ∈ (e.answers gates ws).2.visited ↔
        p ∈ e.visited ∨ ∃ g, gates[p]? = some g ∧ ∃ w ∈ ws, Behind gates g w) := by
  induction ws generalizing e with
  | nil =>
    refine ⟨.nil, fun _ p ↦ ⟨.inl, ?_⟩⟩
    rintro (hp | ⟨g, -, w, hw, -⟩)
    · exact hp
    · cases hw
  | cons w ws ih =>
    rw [answers_cons]
    obtain ⟨hanswers, hvisited⟩ := ih (he.answer hgates hnodup w)
    refine ⟨.cons (he.isAnswer hgates hnodup w) hanswers, fun hok p ↦ ?_⟩
    obtain ⟨⟨a, ha⟩, hok⟩ := List.forall_mem_cons.mp hok
    rw [hvisited hok, he.mem_visited_answer hgates hnodup (Prod.ext ha rfl), or_assoc]
    simp only [List.exists_mem_cons_iff, and_or_left, exists_or]

end

/-- No walk goes on forever, and every run makes the steps of its walk.  The calls on one expander
for wires of a valid circuit are all answered, those that come after a failure as well: a call fails
exactly if a linear gate behind the wire depends on itself, and otherwise its answer is the sum that
unfolding the linear gates gives, over wires that no linear gate drives.  If no call has failed then
exactly the gates behind the wires have been visited. -/
theorem calls_answered {c : Circuit} (hc : c.validate = .ok ()) (ws : List Wire) :
    (WellFounded fun u t : Walk ↦ t.step c.gates = .more u) ∧
    (∀ t : Walk, ∃ u, Relation.ReflTransGen (fun t u : Walk ↦ t.step c.gates = .more u) t u ∧
      u.step c.gates = .ended (t.run c.gates).1 (t.run c.gates).2) ∧
    List.Forall₂ (IsAnswer c.gates) ws (answers c.gates {} ws).1 ∧
    ((∀ x ∈ (answers c.gates {} ws).1, ∃ a, x = .ok a) →
      ∀ p, p ∈ (answers c.gates {} ws).2.visited ↔
        ∃ g, c.gates[p]? = some g ∧ ∃ w ∈ ws, Behind c.gates g w) := by
  have h := Circuit.validate_eq_ok.mp hc
  have hnodup : (c.gates.flatMap Gate.outs).Nodup := (List.nodup_append.mp h.nodup).2.1
  obtain ⟨hanswers, hvisited⟩ := sound_empty.answers (fun g hg ↦ (h.gates g hg).shaped) hnodup ws
  refine ⟨Walk.wellFounded_step c.gates, Walk.exists_steps c.gates, hanswers, fun hok p ↦ ?_⟩
  rw [hvisited hok p, or_iff_right List.not_mem_nil]

/-- Two linear gates that read each other's outputs, beside a diamond of linear gates, and one that
reads both. -/
def tangled : Circuit where
  inputs := [⟨1, []⟩, ⟨2, []⟩]
  gates :=
    [⟨.add, [1, 2], [3], []⟩, ⟨.constMul (.reduce 2), [3], [4], []⟩, ⟨.sub, [3, 4], [5], []⟩,
      ⟨.add, [5, 5], [6], []⟩, ⟨.sub, [8, 1], [7], []⟩, ⟨.add, [7, 5], [8], []⟩]
  outputs := [6, 8]

/-- Calls after one that fails are answered as if it had not been made. -/
theorem calls_answered_tangled : tangled.validate = .ok () ∧
    (∃ g, Behind tangled.gates g 8 ∧ DependsOn tangled.gates g g) ∧
    Unfolds tangled.gates 6 (.monomial 1 (-2) + .monomial 2 (-2)) ∧
    ∀ p, p ∈ [3, 2, 1, 0] ↔ ∃ g, tangled.gates[p]? = some g ∧
      ∃ w ∈ [6, 3], Behind tangled.gates g w := by
  have hc : tangled.validate = .ok () := by decide +kernel
  have hfails : (answers tangled.gates {} [8, 6]).1 =
      [.error (.malformed (.selfDependent ⟨.sub, [8, 1], [7], []⟩)),
        .ok (.monomial 1 (-2) + .monomial 2 (-2))] := by decide +kernel
  have hvisited : (answers tangled.gates {} [6, 3]).2.visited = [3, 2, 1, 0] := by decide +kernel
  have hok : ∀ x ∈ (answers tangled.gates {} [6, 3]).1, ∃ a, x = .ok a := by
    have hanswers : (answers tangled.gates {} [6, 3]).1 =
        [.ok (.monomial 1 (-2) + .monomial 2 (-2)), .ok (.var 1 + .var 2)] := by decide +kernel
    rw [hanswers]
    exact List.forall_mem_cons.mpr ⟨⟨_, rfl⟩, List.forall_mem_singleton.mpr ⟨_, rfl⟩⟩
  obtain ⟨-, -, hanswers, -⟩ := calls_answered hc [8, 6]
  rw [hfails] at hanswers
  obtain _ | ⟨hcyclic, _ | ⟨hdiamond, -⟩⟩ := hanswers
  obtain ⟨-, -, -, hbehind⟩ := calls_answered hc [6, 3]
  rw [← hvisited]
  exact ⟨hc, hcyclic.error_iff.mp ⟨_, rfl⟩, (hdiamond.ok_iff _).mp rfl, hbehind hok⟩

end Quadratize.Expander
