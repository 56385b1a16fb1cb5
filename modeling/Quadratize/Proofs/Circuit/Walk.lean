import Quadratize.Circuit.Walk
import Quadratize.Proofs.Circuit.Expansion

/-!
# Walks through linear gates

Every walk comes to an end.  On a walk from the gate behind a wire, whatever lies on the stack above
a gate that waits is a gate on which that one depends, and what a gate that waits needs is known or
lies above it.  So a walk fails only at a gate that depends on itself, and where it ends otherwise
the expansion of the wire is known, and the gates behind the wire have been visited.
-/

namespace Quadratize.Expander

variable {gates : List Gate} {w : Wire} {p q : Nat} {a : Affine Wire} {e e' : Expander}

/-! ## Gates that a gate needs -/

theorem mem_needed {g : Gate} : q ∈ e.needed gates g ↔
    (∃ w ∈ g.ins, linearProducer? gates w = some q) ∧ e.knows q = false := by
  simp [needed]

/-- The gate that drives a wire is behind the wire. -/
theorem exists_behind (h : linearProducer? gates w = some p) :
    ∃ g, gates[p]? = some g ∧ Behind gates g w := by
  obtain ⟨⟨g, hg, hlinear⟩, d, hd, hw⟩ := linearProducer?_eq_some h
  obtain rfl : g = d := Option.some.inj (hg.symm.trans hd)
  exact ⟨g, hg, .drives (List.mem_of_getElem? hg) hlinear hw⟩

/-- A gate depends on the gates that it reads from. -/
theorem dependsOn_of_linearProducer? {g d : Gate} {v : Wire} (hv : v ∈ g.ins)
    (h : linearProducer? gates v = some q) (hd : gates[q]? = some d) : DependsOn gates g d := by
  obtain ⟨b, hb, hbehind⟩ := exists_behind h
  obtain rfl : d = b := Option.some.inj (hd.symm.trans hb)
  exact ⟨v, hv, hbehind⟩

theorem exists_combine {g : Gate} {xs : List (Affine Wire)} (hshape : g.Shaped)
    (hlinear : g.op.isLinear = true) (hxs : xs.length = g.ins.length) :
    ∃ a, combine? g.op xs = some a := by
  cases hshape with
  | add x y z note =>
    obtain ⟨a, b, rfl⟩ := List.length_eq_two.mp hxs
    exact ⟨_, rfl⟩
  | sub x y z note =>
    obtain ⟨a, b, rfl⟩ := List.length_eq_two.mp hxs
    exact ⟨_, rfl⟩
  | constMul c x z note =>
    obtain ⟨a, rfl⟩ := List.length_eq_one_iff.mp hxs
    exact ⟨_, rfl⟩
  | _ => cases hlinear

namespace Walk

variable {t u : Walk} {failure : Option CircuitError} {err : CircuitError}

/-! ## Ends of walks -/

/-- How a walk ends. -/
inductive Ends (gates : List Gate) : Walk → Option CircuitError → Expander → Prop
  | done {waiting : List Nat} {e : Expander} : Ends gates ⟨[], waiting, e⟩ none e
  | cycle {p q : Nat} {g : Gate} {rest : List Visit} {waiting : List Nat} {e : Expander}
    (hg : gates[p]? = some g) (hneeded : q ∈ (e.mark p).needed gates g)
    (hwaits : q ∈ waiting.insert p) :
    Ends gates ⟨.enter p :: rest, waiting, e⟩ (some (.malformed (.selfDependent g))) (e.mark p)
  | lost {v : Visit} {rest : List Visit} {waiting : List Nat} {e : Expander}
    (hg : gates[v.gate]? = none) : Ends gates ⟨v :: rest, waiting, e⟩ (some (.missing v.gate)) e
  | unknown {p : Nat} {g : Gate} {err : CircuitError} {rest : List Visit} {waiting : List Nat}
    {e : Expander} (hg : gates[p]? = some g) (h : g.ins.mapM (e.operand gates) = .error err) :
    Ends gates ⟨.leave p :: rest, waiting, e⟩ (some err) e
  | misfit {p : Nat} {g : Gate} {xs : List (Affine Wire)} {rest : List Visit} {waiting : List Nat}
    {e : Expander} (hg : gates[p]? = some g) (hxs : g.ins.mapM (e.operand gates) = .ok xs)
    (h : combine? g.op xs = none) :
    Ends gates ⟨.leave p :: rest, waiting, e⟩ (some (.violation g .notAffine)) e

theorem ends_of_step (h : step gates t = .ended failure e) : Ends gates t failure e := by
  obtain ⟨stack, waiting, e₀⟩ := t
  cases stack with
  | nil =>
    obtain ⟨rfl, rfl⟩ := Progress.ended.inj h
    exact .done
  | cons v rest =>
    rw [step] at h
    dsimp only at h
    split_ifs at h
    split at h
    · rename_i hg
      obtain ⟨rfl, rfl⟩ := Progress.ended.inj h
      exact .lost hg
    · rename_i g p hg
      rw [Walk.enter] at h
      split_ifs at h with hany
      obtain ⟨rfl, rfl⟩ := Progress.ended.inj h
      obtain ⟨q, hneeded, hwaits⟩ := List.any_eq_true.mp hany
      exact .cycle hg hneeded (of_decide_eq_true hwaits)
    · rename_i g p hg
      rw [Walk.leave] at h
      split at h
      · rename_i err herr
        obtain ⟨rfl, rfl⟩ := Progress.ended.inj h
        exact .unknown hg herr
      · rename_i xs hxs
        split at h
        · cases h
        · rename_i hnone
          obtain ⟨rfl, rfl⟩ := Progress.ended.inj h
          exact .misfit hg hxs hnone

/-- There is no walk without end. -/
theorem wellFounded_step (gates : List Gate) :
    WellFounded fun u t : Walk ↦ t.step gates = .more u :=
  Subrelation.wf (fun h ↦ (moves_of_step h).weight_lt) (measure (weight gates)).wf

/-- A run makes the steps of the walk, up to the one that ends it. -/
theorem exists_steps (gates : List Gate) (t : Walk) :
    ∃ u, Relation.ReflTransGen (fun t u : Walk ↦ t.step gates = .more u) t u ∧
      u.step gates = .ended (t.run gates).1 (t.run gates).2 := by
  induction t using (wellFounded_step gates).induction with
  | _ t ih =>
    rw [run]
    split
    · rename_i u hstep
      obtain ⟨v, hsteps, hend⟩ := ih u hstep
      exact ⟨v, .head hstep hsteps, hend⟩
    · rename_i failure e hstep
      exact ⟨t, .refl, hstep⟩

/-- What every step keeps holds where the run ends. -/
theorem run_induction {P : Walk → Prop} (hstep : ∀ t u, P t → Moves gates t u → P u) (ht : P t) :
    ∃ u, P u ∧ Ends gates u (t.run gates).1 (t.run gates).2 := by
  obtain ⟨u, hsteps, hend⟩ := exists_steps gates t
  refine ⟨u, ?_, ends_of_step hend⟩
  clear hend
  induction hsteps with
  | refl => exact ht
  | tail _ h ih => exact hstep _ _ ih (moves_of_step h)

/-! ## Operands -/

/-- What a gate that is left later needs is known or visited above it. -/
def Covered (gates : List Gate) (e : Expander) : List Nat → List Visit → Prop
  | _, [] => True
  | above, v :: rest =>
    (∀ p, v = .leave p → ∀ g, gates[p]? = some g → ∀ w ∈ g.ins, ∀ q,
      linearProducer? gates w = some q → e.knows q = true ∨ q ∈ above) ∧
      Covered gates e (v.gate :: above) rest

theorem Covered.mono {above above' : List Nat} {vs : List Visit} (hc : Covered gates e above vs)
    (h : ∀ q, e.knows q = true ∨ q ∈ above → e'.knows q = true ∨ q ∈ above') :
    Covered gates e' above' vs := by
  induction vs generalizing above above' with
  | nil => trivial
  | cons v rest ih =>
    refine ⟨fun p hp g hg w hw q hq ↦ h q (hc.1 p hp g hg w hw q hq), ih hc.2 fun q hq ↦ ?_⟩
    rw [List.mem_cons, or_left_comm] at hq ⊢
    exact hq.imp_right (h q)

/-- What is not needed any more because it is known need not lie above. -/
theorem Covered.drop {v : Visit} {rest : List Visit} (hc : Covered gates e [] (v :: rest))
    (hv : e'.knows v.gate = true) (h : ∀ q, e.knows q = true → e'.knows q = true) :
    Covered gates e' [] rest := by
  refine hc.2.mono fun q hq ↦ .inl ?_
  rcases hq with hq | hq
  · exact h q hq
  · rw [List.mem_singleton.mp hq]
    exact hv

theorem covered_enter {above qs : List Nat} {vs : List Visit}
    (hc : Covered gates e (qs.reverse ++ above) vs) :
    Covered gates e above (qs.map .enter ++ vs) := by
  induction qs generalizing above with
  | nil => exact hc
  | cons q qs ih =>
    rw [List.reverse_cons, List.append_assoc] at hc
    exact ⟨nofun, ih hc⟩

/-! ## Cycles -/

/-- All gates on the stack are behind the wire, a gate that waits is left later or known by now, it
depends on whatever lies above it, and what it needs is known or lies there.  The gate that drives
the wire is known or on the stack. -/
structure Traced (gates : List Gate) (w : Wire) (t : Walk) : Prop where
  behind : ∀ v ∈ t.stack, ∃ g, gates[v.gate]? = some g ∧ Behind gates g w
  waiting : ∀ q ∈ t.waiting, t.expander.knows q = true ∨ .leave q ∈ t.stack
  nested : t.stack.Pairwise fun u v ↦ ∀ q, v = .leave q → ∀ g d, gates[q]? = some g →
    gates[u.gate]? = some d → DependsOn gates g d
  covered : Covered gates t.expander [] t.stack
  root : ∀ q, linearProducer? gates w = some q →
    t.expander.knows q = true ∨ ∃ v ∈ t.stack, v.gate = q

theorem Traced.start (h : linearProducer? gates w = some p) (e : Expander) :
    Traced gates w { stack := [.enter p], expander := e } where
  behind := List.forall_mem_singleton.mpr (exists_behind h)
  waiting := nofun
  nested := List.pairwise_singleton _ _
  covered := ⟨nofun, trivial⟩
  root := fun _ hq ↦ .inr ⟨.enter p, List.mem_cons_self, Option.some.inj (h.symm.trans hq)⟩

section

variable {v : Visit} {g : Gate} {rest : List Visit} {waiting waiting' : List Nat}

/-- The gate on top of the stack is behind the wire. -/
theorem Traced.top (h : Traced gates w ⟨v :: rest, waiting, e⟩) (hg : gates[v.gate]? = some g) :
    Behind gates g w := by
  obtain ⟨d, hd, hbehind⟩ := h.behind v List.mem_cons_self
  obtain rfl : g = d := Option.some.inj (hg.symm.trans hd)
  exact hbehind

/-- The operands of a gate that is left are found. -/
theorem Traced.exists_operands (h : Traced gates w ⟨.leave p :: rest, waiting, e⟩)
    (hg : gates[p]? = some g) : ∃ xs, g.ins.mapM (e.operand gates) = .ok xs :=
  exists_mapM_ok fun v hv ↦ exists_operand_iff.mpr fun q hq ↦
    (h.covered.1 p rfl g hg v hv q hq).resolve_right List.not_mem_nil

/-- Taking a visit off the stack after which its gate is known. -/
theorem Traced.pop (h : Traced gates w ⟨v :: rest, waiting, e⟩) (hv : e'.knows v.gate = true)
    (hknows : ∀ q, e.knows q = true → e'.knows q = true) (hwaiting : waiting' ⊆ waiting) :
    Traced gates w ⟨rest, waiting', e'⟩ where
  behind := (List.forall_mem_cons.mp h.behind).2
  waiting := by
    intro q hq
    rcases h.waiting q (hwaiting hq) with hknown | hleave
    · exact .inl (hknows q hknown)
    · rcases List.mem_cons.mp hleave with rfl | hleave
      · exact .inl hv
      · exact .inr hleave
  nested := h.nested.tail
  covered := h.covered.drop hv hknows
  root := by
    intro q hq
    rcases h.root q hq with hq | ⟨u, hu, rfl⟩
    · exact .inl (hknows q hq)
    · rcases List.mem_cons.mp hu with rfl | hu
      · exact .inl hv
      · exact .inr ⟨u, hu, rfl⟩

/-- The gates that a gate needs are gates on which it depends. -/
theorem exists_dependsOn_of_needed {u : Visit}
    (hu : u ∈ (e.needed gates g).reverse.map Visit.enter) :
    ∃ d, gates[u.gate]? = some d ∧ DependsOn gates g d := by
  obtain ⟨q, hq, rfl⟩ := List.mem_map.mp hu
  obtain ⟨⟨z, hz, hprod⟩, -⟩ := mem_needed.mp (List.mem_reverse.mp hq)
  obtain ⟨d, hd, -⟩ := exists_behind hprod
  exact ⟨d, hd, dependsOn_of_linearProducer? hz hprod hd⟩

/-- Putting the gates that a gate needs above it, and then its second visit. -/
theorem Traced.enter (h : Traced gates w ⟨.enter p :: rest, waiting, e⟩)
    (hg : gates[p]? = some g) : Traced gates w
      ⟨((e.mark p).needed gates g).reverse.map .enter ++ .leave p :: rest, waiting.insert p,
        e.mark p⟩ where
  behind := by
    intro v hv
    rcases List.mem_append.mp hv with hv | hv
    · obtain ⟨d, hd, hdep⟩ := exists_dependsOn_of_needed hv
      exact ⟨d, hd, (h.top hg).trans hdep⟩
    · rcases List.mem_cons.mp hv with rfl | hv
      · exact ⟨g, hg, h.top hg⟩
      · exact h.behind v (List.mem_cons_of_mem _ hv)
  waiting := by
    intro q hq
    rcases List.mem_insert_iff.mp hq with rfl | hq
    · exact .inr (List.mem_append_right _ List.mem_cons_self)
    · refine (h.waiting q hq).imp_right fun hleave ↦ ?_
      have hrest : Visit.leave q ∈ rest := (List.mem_cons.mp hleave).resolve_left nofun
      exact List.mem_append_right _ (List.mem_cons_of_mem _ hrest)
  nested := by
    obtain ⟨hfirst, hlater⟩ := List.pairwise_cons.mp h.nested
    refine List.pairwise_append.mpr ⟨?_, List.pairwise_cons.mpr ⟨hfirst, hlater⟩, ?_⟩
    · exact List.pairwise_map.mpr (List.pairwise_of_forall fun _ _ ↦ nofun)
    · rintro u hu v hv q rfl d b hd hb
      obtain ⟨b', hb', hdep⟩ := exists_dependsOn_of_needed hu
      obtain rfl : b = b' := Option.some.inj (hb.symm.trans hb')
      rcases List.mem_cons.mp hv with he | hv
      · obtain rfl := Visit.leave.inj he
        obtain rfl : g = d := Option.some.inj (hg.symm.trans hd)
        exact hdep
      · exact (hfirst _ hv q rfl d g hd hg).trans hdep
  covered := by
    refine covered_enter ⟨fun q hq d hd v hv s hs ↦ ?_, ?_⟩
    · obtain rfl := Visit.leave.inj hq
      obtain rfl : g = d := Option.some.inj (hg.symm.trans hd)
      cases hknown : e.knows s with
      | true => exact .inl hknown
      | false =>
        refine .inr (List.mem_append_left _ ?_)
        rw [List.reverse_reverse]
        exact mem_needed.mpr ⟨⟨v, hv, hs⟩, hknown⟩
    · refine h.covered.2.mono fun q hq ↦ hq.imp_right fun hq ↦ ?_
      exact List.mem_cons.mpr (.inl (List.mem_singleton.mp hq))
  root := by
    intro q hq
    rcases h.root q hq with hq | ⟨v, hv, rfl⟩
    · exact .inl hq
    · rcases List.mem_cons.mp hv with rfl | hv
      · exact .inr ⟨.leave p, List.mem_append_right _ List.mem_cons_self, rfl⟩
      · exact .inr ⟨v, List.mem_append_right _ (List.mem_cons_of_mem _ hv), rfl⟩

end

theorem Traced.moves (h : Traced gates w t) (hmoves : Moves gates t u) : Traced gates w u := by
  cases hmoves with
  | skip hskip => exact h.pop hskip (fun _ hq ↦ hq) (List.Subset.refl _)
  | leave hnew hg hxs ha =>
    exact h.pop (knows_learn.mpr (.inl rfl)) (fun _ hq ↦ knows_learn.mpr (.inr hq))
      List.erase_subset
  | enter hnew hg hneeded => exact h.enter hg

/-- A walk fails only at a gate that depends on itself. -/
theorem Traced.cycle (h : Traced gates w t) (hgates : ∀ g ∈ gates, g.Shaped)
    (hend : Ends gates t (some err) e) :
    ∃ g, err = .malformed (.selfDependent g) ∧ Behind gates g w ∧ DependsOn gates g g := by
  cases hend with
  | @cycle p q g rest waiting e₀ hg hneeded hwaits =>
    obtain ⟨⟨v, hv, hprod⟩, hnew⟩ := mem_needed.mp hneeded
    refine ⟨g, rfl, h.top hg, ?_⟩
    rcases List.mem_insert_iff.mp hwaits with rfl | hwaits
    · exact dependsOn_of_linearProducer? hv hprod hg
    · -- The gate that waits lies below, so that it depends on this one.
      obtain ⟨d, hd, -⟩ := exists_behind hprod
      have hknown : ¬e₀.knows q = true := ne_true_of_eq_false hnew
      have hleave : Visit.leave q ∈ rest :=
        (List.mem_cons.mp ((h.waiting q hwaits).resolve_left hknown)).resolve_left nofun
      have hback := (List.pairwise_cons.mp h.nested).1 _ hleave q rfl d g hd hg
      exact (dependsOn_of_linearProducer? hv hprod hd).trans hback
  | lost hg =>
    obtain ⟨g, hg', -⟩ := h.behind _ List.mem_cons_self
    cases hg.symm.trans hg'
  | unknown hg herr =>
    obtain ⟨xs, hxs⟩ := h.exists_operands hg
    cases herr.symm.trans hxs
  | misfit hg hxs hnone =>
    obtain ⟨hmem, hlinear⟩ := (h.top hg).linear
    obtain ⟨a, ha⟩ := exists_combine (hgates _ hmem) hlinear (mapM_eq_ok.mp hxs).length_eq.symm
    cases hnone.symm.trans ha

/-- Where nothing is left to be visited the gate that drives the wire is known. -/
theorem Traced.covers {waiting : List Nat} (h : Traced gates w ⟨[], waiting, e⟩) :
    e.Covers gates w :=
  fun q hq ↦ (h.root q hq).resolve_right fun ⟨_, hv, _⟩ ↦ List.not_mem_nil hv

/-! ## Growth -/

/-- A walk from the gate behind a wire.  Beside what it knew at the start, the expander has visited
gates behind the wire, and of these it knows all but those that wait. -/
structure Running (gates : List Gate) (w : Wire) (e : Expander) (t : Walk) : Prop
    extends Traced gates w t where
  sound : Sound gates t.expander
  knows : ∀ q, e.knows q = true → t.expander.knows q = true
  visited : e.visited ⊆ t.expander.visited
  fresh : ∀ q ∈ t.expander.visited, q ∈ e.visited ∨
    (∃ g, gates[q]? = some g ∧ Behind gates g w) ∧
      (t.expander.knows q = true ∨ .leave q ∈ t.stack)
  marked : ∀ q, .leave q ∈ t.stack → q ∈ t.expander.visited

theorem Running.start (he : Sound gates e) (h : linearProducer? gates w = some p) :
    Running gates w e { stack := [.enter p], expander := e } where
  toTraced := .start h e
  sound := he
  knows := fun _ hq ↦ hq
  visited := List.Subset.refl _
  fresh := fun _ hq ↦ .inl hq
  marked := fun _ hq ↦ nomatch List.mem_singleton.mp hq

section

variable {v : Visit} {g : Gate} {rest : List Visit} {waiting waiting' : List Nat}
  {e₁ e₂ : Expander}

/-- Taking a visit off the stack after which its gate is known. -/
theorem Running.pop (h : Running gates w e ⟨v :: rest, waiting, e₁⟩) (hsound : Sound gates e₂)
    (hv : e₂.knows v.gate = true) (hknows : ∀ q, e₁.knows q = true → e₂.knows q = true)
    (hvisited : e₂.visited = e₁.visited) (hwaiting : waiting' ⊆ waiting) :
    Running gates w e ⟨rest, waiting', e₂⟩ where
  toTraced := h.toTraced.pop hv hknows hwaiting
  sound := hsound
  knows := fun q hq ↦ hknows q (h.knows q hq)
  visited := hvisited ▸ h.visited
  fresh := by
    intro q hq
    refine (h.fresh q (hvisited ▸ hq)).imp_right (And.imp_right fun hq ↦ ?_)
    rcases hq with hq | hq
    · exact .inl (hknows q hq)
    · rcases List.mem_cons.mp hq with rfl | hq
      · exact .inl hv
      · exact .inr hq
  marked := fun q hq ↦ hvisited ▸ h.marked q (List.mem_cons_of_mem _ hq)

/-- Putting the gates that a gate needs above it, and then its second visit. -/
theorem Running.enter (h : Running gates w e ⟨.enter p :: rest, waiting, e₁⟩)
    (hg : gates[p]? = some g) : Running gates w e
      ⟨((e₁.mark p).needed gates g).reverse.map .enter ++ .leave p :: rest, waiting.insert p,
        e₁.mark p⟩ where
  toTraced := h.toTraced.enter hg
  sound := h.sound.mark ⟨g, hg, (h.top hg).linear.2⟩
  knows := h.knows
  visited := fun q hq ↦ mem_visited_mark.mpr (.inl (h.visited hq))
  fresh := by
    intro q hq
    rcases mem_visited_mark.mp hq with hq | rfl
    · refine (h.fresh q hq).imp_right (And.imp_right (Or.imp_right fun hq ↦ ?_))
      have hrest : Visit.leave q ∈ rest := (List.mem_cons.mp hq).resolve_left nofun
      exact List.mem_append_right _ (List.mem_cons_of_mem _ hrest)
    · exact .inr ⟨⟨g, hg, h.top hg⟩, .inr (List.mem_append_right _ List.mem_cons_self)⟩
  marked := by
    intro q hq
    refine mem_visited_mark.mpr ?_
    rcases List.mem_append.mp hq with hq | hq
    · obtain ⟨_, -, he⟩ := List.mem_map.mp hq
      cases he
    · rcases List.mem_cons.mp hq with he | hq
      · exact .inr (Visit.leave.inj he)
      · exact .inl (h.marked q (List.mem_cons_of_mem _ hq))

end

theorem Running.moves (hgates : ∀ g ∈ gates, g.Shaped) (hnodup : (gates.flatMap Gate.outs).Nodup)
    (h : Running gates w e t) (hmoves : Moves gates t u) : Running gates w e u := by
  cases hmoves with
  | skip hskip =>
    exact h.pop h.sound hskip (fun _ hq ↦ hq) rfl (List.Subset.refl _)
  | @leave p g xs a rest waiting e₁ hnew hg hxs ha =>
    have hsound := h.sound.learn hg hxs ha hnodup (hgates g (List.mem_of_getElem? hg))
      (h.marked p List.mem_cons_self)
    exact h.pop hsound (knows_learn.mpr (.inl rfl)) (fun q hq ↦ knows_learn.mpr (.inr hq)) rfl
      List.erase_subset
  | enter hnew hg hneeded => exact h.enter hg

/-- Where nothing is left to be visited the expansion of the wire is known. -/
theorem Running.done {waiting : List Nat} (h : Running gates w e ⟨[], waiting, e'⟩) :
    Grows gates e e' ∧ e'.Covers gates w ∧
      ∀ q ∈ e'.visited, q ∈ e.visited ∨ ∃ g, gates[q]? = some g ∧ Behind gates g w := by
  refine ⟨⟨h.sound, h.knows, h.visited, fun q hq ↦ ?_⟩, h.toTraced.covers, fun q hq ↦ ?_⟩
  · exact (h.fresh q hq).imp_right fun hq ↦ hq.2.resolve_right List.not_mem_nil
  · exact (h.fresh q hq).imp_right And.left

/-- What has been found before a failure is kept. -/
theorem Running.sound_of_ends (h : Running gates w e t) (hend : Ends gates t failure e') :
    Sound gates e' := by
  cases hend with
  | done => exact h.sound
  | lost _ | unknown _ _ | misfit _ _ _ => exact h.sound
  | cycle hg hneeded hwaits => exact h.sound.mark ⟨_, hg, (h.top hg).linear.2⟩

end Walk

/-! ## Answers -/

theorem answer_of_leaf (h : linearProducer? gates w = none) :
    e.answer gates w = (.ok (Affine.var w), e) := by
  rw [answer, h]

/-- A call on a wire that a linear gate drives answers with what the walk from the gate ends with.
What every step keeps holds there. -/
theorem answer_of_walk {P : Walk → Prop} (hstep : ∀ t u, P t → Walk.Moves gates t u → P u)
    (hp : linearProducer? gates w = some p)
    (hstart : P { stack := [.enter p], expander := e }) :
    ∃ u failure e', P u ∧ Walk.Ends gates u failure e' ∧ e.answer gates w =
      (match failure with
        | none => e'.expansion p
        | some err => .error err, e') := by
  obtain ⟨u, hu, hend⟩ := Walk.run_induction hstep hstart
  rcases hrun : Walk.run gates { stack := [.enter p], expander := e } with ⟨failure, e'⟩
  rw [hrun] at hend
  refine ⟨u, failure, e', hu, hend, ?_⟩
  rw [answer, hp]
  dsimp only
  rw [hrun]
  cases failure <;> rfl

/-- A call fails only if a gate behind the wire depends on itself. -/
theorem answer_eq_error {err : CircuitError} (hgates : ∀ g ∈ gates, g.Shaped)
    (h : e.answer gates w = (.error err, e')) :
    ∃ g, err = .malformed (.selfDependent g) ∧ Behind gates g w ∧ DependsOn gates g g := by
  cases hp : linearProducer? gates w with
  | none =>
    rw [answer_of_leaf hp] at h
    cases (Prod.mk.inj h).1
  | some p =>
    obtain ⟨u, failure, e₁, hu, hend, hanswer⟩ :=
      answer_of_walk (e := e) (fun t u ht ↦ Walk.Traced.moves ht) hp (.start hp e)
    obtain ⟨herr, -⟩ := Prod.mk.inj (hanswer.symm.trans h)
    cases failure with
    | none =>
      cases hend with
      | done =>
        obtain ⟨a, ha⟩ := exists_expansion (hu.covers p hp)
        cases herr.symm.trans ha
    | some err' =>
      obtain rfl := Except.error.inj herr
      exact hu.cycle hgates hend

section

variable (hgates : ∀ g ∈ gates, g.Shaped) (hnodup : (gates.flatMap Gate.outs).Nodup)
  (he : Sound gates e)
include hgates hnodup he

/-- What a call leaves is sound, also if it fails. -/
theorem Sound.answer (w : Wire) : Sound gates (e.answer gates w).2 := by
  cases hp : linearProducer? gates w with
  | none =>
    rw [answer_of_leaf hp]
    exact he
  | some p =>
    obtain ⟨u, failure, e₁, hu, hend, hanswer⟩ :=
      answer_of_walk (fun t u ht ↦ Walk.Running.moves hgates hnodup ht) hp (.start he hp)
    rw [hanswer]
    exact hu.sound_of_ends hend

/-- The answer to a call is the expansion of the wire, and the expander has visited only gates behind
the wire. -/
theorem answer_spec (h : e.answer gates w = (.ok a, e')) :
    Grows gates e e' ∧ e'.Covers gates w ∧ Unfolds gates w a ∧
      ∀ q ∈ e'.visited, q ∈ e.visited ∨ ∃ g, gates[q]? = some g ∧ Behind gates g w := by
  cases hp : linearProducer? gates w with
  | none =>
    rw [answer_of_leaf hp] at h
    obtain ⟨ha, rfl⟩ := Prod.mk.inj h
    obtain rfl := Except.ok.inj ha
    refine ⟨.refl he, fun q hq ↦ ?_, .leaf (leaf_of_linearProducer? hnodup hp), fun q hq ↦ .inl hq⟩
    cases hp.symm.trans hq
  | some p =>
    obtain ⟨u, failure, e₁, hu, hend, hanswer⟩ :=
      answer_of_walk (fun t u ht ↦ Walk.Running.moves hgates hnodup ht) hp (.start he hp)
    obtain ⟨ha, rfl⟩ := Prod.mk.inj (hanswer.symm.trans h)
    cases hend with
    | done =>
      obtain ⟨hgrows, hcovers, hvisited⟩ := hu.done
      obtain ⟨-, g, hg, hw⟩ := linearProducer?_eq_some hp
      exact ⟨hgrows, hcovers, hgrows.sound.known p a (expansion_eq_ok.mp ha) g hg w hw, hvisited⟩
    | _ => cases ha

end

theorem expand_eq_ok : e.expand gates w = .ok (a, e') ↔ e.answer gates w = (.ok a, e') := by
  unfold expand
  split
  · rename_i h
    rw [h]
    simp
  · rename_i h
    rw [h]
    simp

/-- The expansion of a wire. -/
theorem expand_spec (hgates : ∀ g ∈ gates, g.WellFormed) (hnodup : (gates.flatMap Gate.outs).Nodup)
    (he : Sound gates e) (h : e.expand gates w = .ok (a, e')) :
    Grows gates e e' ∧ e'.Covers gates w ∧ Expands gates w a := by
  obtain ⟨hgrows, hcovers, hunfolds, -⟩ :=
    answer_spec (fun g hg ↦ (hgates g hg).shaped) hnodup he (expand_eq_ok.mp h)
  exact ⟨hgrows, hcovers, hunfolds.expands⟩

/-- If the gates are acyclic then every wire can be expanded. -/
theorem exists_expand (hgates : ∀ g ∈ gates, g.WellFormed) (hacyclic : Gate.Acyclic gates)
    (e : Expander) (w : Wire) : ∃ x, e.expand gates w = .ok x := by
  rcases h : e.answer gates w with ⟨x, e'⟩
  cases x with
  | ok a => exact ⟨(a, e'), expand_eq_ok.mpr h⟩
  | error err =>
    obtain ⟨g, -, hbehind, hself⟩ := answer_eq_error (fun g hg ↦ (hgates g hg).shaped) h
    exact absurd hself (not_dependsOn_self hacyclic hbehind.linear.1)

end Quadratize.Expander
