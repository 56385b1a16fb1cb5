import Quadratize.Circuit.Expansion
import Quadratize.Proofs.Circuit.Acyclic

/-!
# Expansions

The expansion of a wire is what unfolding the linear gates behind it gives; it exists only if none
of these gates depends on itself.  It has the value of the wire under every assignment that
satisfies the linear gates, and it mentions only wires that lead to the wire and that no linear gate
drives.  What an expander knows are expansions, each the sum of the operands of its gate.
-/

namespace Quadratize

namespace Gate

variable {gates : List Gate} {w : Wire} {p q : Nat} {g d : Gate}

theorem producer?_eq_some (h : producer? gates w = some p) :
    ∃ g, gates[p]? = some g ∧ w ∈ g.outs := by
  obtain ⟨⟨g, i⟩, hfind, rfl⟩ := Option.map_eq_some_iff.mp h
  have hmem : (g, i) ∈ gates.zipIdx := List.mem_reverse.mp (List.mem_of_find?_eq_some hfind)
  exact ⟨g, List.mem_zipIdx_iff_getElem?.mp hmem, by simpa using List.find?_some hfind⟩

theorem producer?_eq_none (h : producer? gates w = none) (hg : g ∈ gates) : w ∉ g.outs := by
  have hfind := List.find?_eq_none.mp (Option.map_eq_none_iff.mp h)
  obtain ⟨i, hi⟩ := List.mem_iff_getElem?.mp hg
  have hmem : (g, i) ∈ gates.zipIdx.reverse :=
    List.mem_reverse.mpr (List.mem_zipIdx_iff_getElem?.mpr hi)
  simpa using hfind (g, i) hmem

/-- If no wire is driven twice then a wire is driven at one position. -/
theorem position_unique (hnodup : (gates.flatMap outs).Nodup) (hg : gates[p]? = some g)
    (hd : gates[q]? = some d) (hwg : w ∈ g.outs) (hwd : w ∈ d.outs) : p = q := by
  have hdisjoint : gates.Pairwise fun a b ↦ a.outs.Disjoint b.outs :=
    (List.nodup_flatMap.mp hnodup).2
  obtain ⟨hp, rfl⟩ := List.getElem?_eq_some_iff.mp hg
  obtain ⟨hq, rfl⟩ := List.getElem?_eq_some_iff.mp hd
  rcases Nat.lt_trichotomy p q with hlt | heq | hgt
  · exact absurd hwd (List.pairwise_iff_getElem.mp hdisjoint p q hp hq hlt hwg)
  · exact heq
  · exact absurd hwg (List.pairwise_iff_getElem.mp hdisjoint q p hq hp hgt hwd)

theorem eq_of_mem_outs (hnodup : (gates.flatMap outs).Nodup) (hg : g ∈ gates) (hd : d ∈ gates)
    (hwg : w ∈ g.outs) (hwd : w ∈ d.outs) : g = d := by
  obtain ⟨p, hp⟩ := List.mem_iff_getElem?.mp hg
  obtain ⟨q, hq⟩ := List.mem_iff_getElem?.mp hd
  obtain rfl := position_unique hnodup hp hq hwg hwd
  exact Option.some.inj (hp.symm.trans hq)

end Gate

namespace Expander

variable {gates : List Gate} {w : Wire} {p q : Nat} {a : Affine Wire} {e e' : Expander}

/-! ## Wires without a linear producer -/

/-- Whether there is a linear gate at the position. -/
def LinearAt (gates : List Gate) (p : Nat) : Prop :=
  ∃ g, gates[p]? = some g ∧ g.op.isLinear = true

theorem linearProducer?_eq_some (h : linearProducer? gates w = some p) :
    LinearAt gates p ∧ ∃ g, gates[p]? = some g ∧ w ∈ g.outs := by
  obtain ⟨hprod, hlinear⟩ := Option.filter_eq_some_iff.mp h
  obtain ⟨g, hg, hw⟩ := Gate.producer?_eq_some hprod
  rw [hg, Option.any_some] at hlinear
  exact ⟨⟨g, hg, hlinear⟩, g, hg, hw⟩

/-- A wire that no linear gate drives. -/
def Leaf (gates : List Gate) (w : Wire) : Prop :=
  ∀ g ∈ gates, g.op.isLinear = true → w ∉ g.outs

theorem leaf_of_linearProducer? (hnodup : (gates.flatMap Gate.outs).Nodup)
    (h : linearProducer? gates w = none) : Leaf gates w := by
  intro g hg hlinear hw
  cases hprod : Gate.producer? gates w with
  | none => exact Gate.producer?_eq_none hprod hg hw
  | some p =>
    obtain ⟨d, hd, hwd⟩ := Gate.producer?_eq_some hprod
    obtain rfl := Gate.eq_of_mem_outs hnodup hg (List.mem_of_getElem? hd) hw hwd
    rw [linearProducer?, hprod, Option.filter_some_eq_none, hd, Option.any_some] at h
    exact h hlinear

/-- A linear gate is the linear producer of what it drives. -/
theorem exists_linearProducer? {g : Gate} (hnodup : (gates.flatMap Gate.outs).Nodup)
    (hg : gates[p]? = some g) (hlinear : g.op.isLinear = true) (hw : w ∈ g.outs) :
    linearProducer? gates w = some p := by
  cases hprod : linearProducer? gates w with
  | none =>
    exact absurd hw (leaf_of_linearProducer? hnodup hprod g (List.mem_of_getElem? hg) hlinear)
  | some q =>
    obtain ⟨-, d, hd, hwd⟩ := linearProducer?_eq_some hprod
    rw [Gate.position_unique hnodup hd hg hwd hw]

/-! ## Gates behind a wire -/

/-- The linear gate drives the wire, or it is behind a wire from which a linear gate drives it. -/
inductive Behind (gates : List Gate) (g : Gate) : Wire → Prop
  | drives {w : Wire} (hg : g ∈ gates) (hlinear : g.op.isLinear = true) (hw : w ∈ g.outs) :
    Behind gates g w
  | reads {d : Gate} {v w : Wire} (hd : d ∈ gates) (hlinear : d.op.isLinear = true)
    (hw : w ∈ d.outs) (hv : v ∈ d.ins) (h : Behind gates g v) : Behind gates g w

/-- The second gate is a linear gate behind an input of the first. -/
def DependsOn (gates : List Gate) (g d : Gate) : Prop :=
  ∃ v ∈ g.ins, Behind gates d v

section

variable {g d b : Gate}

theorem Behind.linear (h : Behind gates g w) : g ∈ gates ∧ g.op.isLinear = true := by
  induction h with
  | drives hg hlinear _ => exact ⟨hg, hlinear⟩
  | reads _ _ _ _ _ ih => exact ih

theorem Behind.trans (h : Behind gates g w) (hd : DependsOn gates g d) : Behind gates d w := by
  obtain ⟨v, hv, hd⟩ := hd
  induction h with
  | drives hg hlinear hw => exact .reads hg hlinear hw hv hd
  | reads hb hlinear hw hu _ ih => exact .reads hb hlinear hw hu ih

theorem DependsOn.trans (h : DependsOn gates g d) (hd : DependsOn gates d b) :
    DependsOn gates g b := by
  obtain ⟨v, hv, h⟩ := h
  exact ⟨v, hv, h.trans hd⟩

/-- Behind the output of a linear gate are the gate and what it depends on. -/
theorem behind_iff (hnodup : (gates.flatMap Gate.outs).Nodup) (hd : d ∈ gates)
    (hlinear : d.op.isLinear = true) (hw : w ∈ d.outs) :
    Behind gates g w ↔ g = d ∨ DependsOn gates d g := by
  constructor
  · intro h
    cases h with
    | drives hg _ hwg => exact .inl (Gate.eq_of_mem_outs hnodup hg hd hwg hw)
    | reads hb _ hwb hv h =>
      obtain rfl := Gate.eq_of_mem_outs hnodup hb hd hwb hw
      exact .inr ⟨_, hv, h⟩
  · rintro (rfl | ⟨v, hv, h⟩)
    · exact .drives hd hlinear hw
    · exact .reads hd hlinear hw hv h

theorem Behind.not_leaf (h : Behind gates g w) : ¬Leaf gates w := by
  cases h with
  | drives hg hlinear hw => exact fun hleaf ↦ hleaf g hg hlinear hw
  | reads hd hlinear hw _ _ => exact fun hleaf ↦ hleaf _ hd hlinear hw

theorem Behind.feeds (h : Behind gates g w) :
    ∃ z ∈ g.outs, Relation.ReflTransGen (Gate.Feeds gates) z w := by
  induction h with
  | drives _ _ hw => exact ⟨_, hw, .refl⟩
  | reads hd _ hw hv _ ih =>
    obtain ⟨z, hz, hfeeds⟩ := ih
    exact ⟨z, hz, hfeeds.tail ⟨_, hd, hv, hw⟩⟩

/-- Acyclic gates do not depend on themselves. -/
theorem not_dependsOn_self (hacyclic : Gate.Acyclic gates) (hg : g ∈ gates) :
    ¬DependsOn gates g g := by
  rintro ⟨v, hv, hbehind⟩
  obtain ⟨ρ, hρ⟩ := hacyclic
  obtain ⟨z, hz, hfeeds⟩ := hbehind.feeds
  exact lt_irrefl _ (Gate.lt_of_feeds hρ (.tail' hfeeds ⟨g, hg, hv, hz⟩))

end

/-! ## Unfolding -/

/-- Unfolding the linear gates behind the wire gives the sum.  A wire that no linear gate drives
stands for itself. -/
inductive Unfolds (gates : List Gate) : Wire → Affine Wire → Prop
  | leaf {w : Wire} (h : Leaf gates w) : Unfolds gates w (.var w)
  | add {x y z : Wire} {note : List Char} {a b : Affine Wire}
    (hg : ⟨.add, [x, y], [z], note⟩ ∈ gates) (hx : Unfolds gates x a) (hy : Unfolds gates y b) :
    Unfolds gates z (a + b)
  | sub {x y z : Wire} {note : List Char} {a b : Affine Wire}
    (hg : ⟨.sub, [x, y], [z], note⟩ ∈ gates) (hx : Unfolds gates x a) (hy : Unfolds gates y b) :
    Unfolds gates z (a - b)
  | constMul {c : Scalar} {x z : Wire} {note : List Char} {a : Affine Wire}
    (hg : ⟨.constMul c, [x], [z], note⟩ ∈ gates) (hx : Unfolds gates x a) :
    Unfolds gates z (a.scale c)

/-- The sum of a linear gate unfolds its output if its operands unfold its inputs. -/
theorem Unfolds.combine {g : Gate} {xs : List (Affine Wire)} {z : Wire} (hg : g ∈ gates)
    (hshape : g.Shaped) (hxs : List.Forall₂ (Unfolds gates) g.ins xs) (hz : z ∈ g.outs)
    (h : combine? g.op xs = some a) : Unfolds gates z a := by
  cases hshape with
  | add x y u note =>
    obtain _ | ⟨hx, _ | ⟨hy, _ | _⟩⟩ := hxs
    obtain rfl := Option.some.inj h
    obtain rfl := List.mem_singleton.mp hz
    exact .add hg hx hy
  | sub x y u note =>
    obtain _ | ⟨hx, _ | ⟨hy, _ | _⟩⟩ := hxs
    obtain rfl := Option.some.inj h
    obtain rfl := List.mem_singleton.mp hz
    exact .sub hg hx hy
  | constMul c x u note =>
    obtain _ | ⟨hx, _ | _⟩ := hxs
    obtain rfl := Option.some.inj h
    obtain rfl := List.mem_singleton.mp hz
    exact .constMul hg hx
  | _ => cases h

/-- What does not depend on itself behind the inputs of a gate shows that the gate does not. -/
theorem not_dependsOn_of_behind {g d : Gate} {z : Wire}
    (hnodup : (gates.flatMap Gate.outs).Nodup) (hd : d ∈ gates) (hlinear : d.op.isLinear = true)
    (hz : z ∈ d.outs) (ih : ∀ v ∈ d.ins, ∀ g, Behind gates g v → ¬DependsOn gates g g)
    (h : Behind gates g z) : ¬DependsOn gates g g := by
  rcases (behind_iff hnodup hd hlinear hz).mp h with rfl | ⟨v, hv, hbehind⟩
  · rintro ⟨v, hv, hbehind⟩
    exact ih v hv _ hbehind ⟨v, hv, hbehind⟩
  · exact ih v hv g hbehind

/-- A wire can be unfolded only if no gate behind it depends on itself. -/
theorem Unfolds.not_dependsOn (hnodup : (gates.flatMap Gate.outs).Nodup)
    (h : Unfolds gates w a) : ∀ g, Behind gates g w → ¬DependsOn gates g g := by
  induction h with
  | leaf hleaf => exact fun g hbehind ↦ absurd hleaf hbehind.not_leaf
  | add hg _ _ ihx ihy =>
    refine fun g ↦ not_dependsOn_of_behind hnodup hg rfl (List.mem_singleton_self _) ?_
    exact List.forall_mem_cons.mpr ⟨ihx, List.forall_mem_singleton.mpr ihy⟩
  | sub hg _ _ ihx ihy =>
    refine fun g ↦ not_dependsOn_of_behind hnodup hg rfl (List.mem_singleton_self _) ?_
    exact List.forall_mem_cons.mpr ⟨ihx, List.forall_mem_singleton.mpr ihy⟩
  | constMul hg _ ihx =>
    refine fun g ↦ not_dependsOn_of_behind hnodup hg rfl (List.mem_singleton_self _) ?_
    exact List.forall_mem_singleton.mpr ihx

/-! ## Values of expansions -/

/-- Whether the equation of every linear gate holds. -/
def LinearHold (gates : List Gate) (r : Wire → Scalar) : Prop :=
  ∀ g ∈ gates, g.op.isLinear = true → g.Holds r

/-- The sum has the value of the wire whenever the linear gates hold, and mentions only wires that
lead to the wire and that no linear gate drives.  It has no constant term, since linear gates add
none. -/
structure Expands (gates : List Gate) (w : Wire) (a : Affine Wire) : Prop where
  eval : ∀ r : Wire → Scalar, LinearHold gates r → a.eval r = r w
  vars : ∀ v ∈ a.vars, Leaf gates v
  behind : ∀ v ∈ a.vars, Relation.ReflTransGen (Gate.Feeds gates) v w
  constant : none ∉ a.keys

theorem Expands.var (hw : Leaf gates w) : Expands gates w (Affine.var w) where
  eval := fun r _ ↦ Affine.eval_var r w
  vars := fun _ hv ↦ Affine.mem_vars_monomial hv ▸ hw
  behind := fun _ hv ↦ Affine.mem_vars_monomial hv ▸ .refl
  constant := fun h ↦ nomatch Sparse.mem_keys_single h

theorem Unfolds.expands (h : Unfolds gates w a) : Expands gates w a := by
  induction h with
  | leaf hleaf => exact .var hleaf
  | @add x y z note _ _ hg _ _ hx hy =>
    refine ⟨fun r hr ↦ ?_, fun v hv ↦ (Affine.mem_vars_add hv).elim (hx.vars v) (hy.vars v),
      fun v hv ↦ ?_, fun hk ↦ (Sparse.mem_keys_add hk).elim hx.constant hy.constant⟩
    · rw [Affine.eval_add, hx.eval r hr, hy.eval r hr]
      exact (hr _ hg rfl).symm
    · rcases Affine.mem_vars_add hv with hv | hv
      · exact (hx.behind v hv).tail ⟨_, hg, by simp, by simp⟩
      · exact (hy.behind v hv).tail ⟨_, hg, by simp, by simp⟩
  | @sub x y z note _ _ hg _ _ hx hy =>
    refine ⟨fun r hr ↦ ?_, fun v hv ↦ (Affine.mem_vars_sub hv).elim (hx.vars v) (hy.vars v),
      fun v hv ↦ ?_, fun hk ↦ (Sparse.mem_keys_sub hk).elim hx.constant hy.constant⟩
    · rw [Affine.eval_sub, hx.eval r hr, hy.eval r hr]
      exact (hr _ hg rfl).symm
    · rcases Affine.mem_vars_sub hv with hv | hv
      · exact (hx.behind v hv).tail ⟨_, hg, by simp, by simp⟩
      · exact (hy.behind v hv).tail ⟨_, hg, by simp, by simp⟩
  | @constMul c x z note _ hg _ hx =>
    refine ⟨fun r hr ↦ ?_, fun v hv ↦ hx.vars v (Affine.mem_vars_scale hv), fun v hv ↦ ?_,
      fun hk ↦ hx.constant (Sparse.mem_keys_scale hk)⟩
    · rw [Affine.eval_scale, hx.eval r hr, mul_comm]
      exact (hr _ hg rfl).symm
    · exact (hx.behind v (Affine.mem_vars_scale hv)).tail ⟨_, hg, by simp, by simp⟩

/-! ## What an expander knows -/

theorem expansion_eq_ok : e.expansion p = .ok a ↔ e.known.lookup p = some a := by
  unfold expansion
  cases e.known.lookup p <;> simp

/-- The linear gate that drives the wire, if there is one, has a known expansion. -/
def Covers (gates : List Gate) (e : Expander) (w : Wire) : Prop :=
  ∀ q, linearProducer? gates w = some q → e.knows q = true

theorem exists_expansion (h : e.knows p = true) : ∃ a, e.expansion p = .ok a := by
  obtain ⟨a, ha⟩ := Option.isSome_iff_exists.mp h
  exact ⟨a, expansion_eq_ok.mpr ha⟩

/-- The operands that are found are those of covered wires. -/
theorem exists_operand_iff : (∃ a, e.operand gates w = .ok a) ↔ e.Covers gates w := by
  unfold operand Covers
  cases linearProducer? gates w with
  | none => simp
  | some q =>
    constructor
    · rintro ⟨a, ha⟩ r hr
      obtain rfl := Option.some.inj hr
      exact Option.isSome_iff_exists.mpr ⟨a, expansion_eq_ok.mp ha⟩
    · intro h
      exact exists_expansion (h q rfl)

/-- What is known are expansions, each the sum of the operands as they are known, and what was
visited is linear. -/
structure Sound (gates : List Gate) (e : Expander) : Prop where
  known : ∀ p a, e.known.lookup p = some a → ∀ g, gates[p]? = some g →
    ∀ z ∈ g.outs, Unfolds gates z a
  sums : ∀ p a, e.known.lookup p = some a → ∀ g, gates[p]? = some g →
    ∃ xs, g.ins.mapM (e.operand gates) = .ok xs ∧ combine? g.op xs = some a
  visited : ∀ p ∈ e.visited, LinearAt gates p
  marked : ∀ p, e.knows p = true → p ∈ e.visited

/-- With a gate the linear gates that it reads from are known. -/
theorem Sound.closed {g : Gate} (h : Sound gates e) (hp : e.knows p = true)
    (hg : gates[p]? = some g) : ∀ w ∈ g.ins, e.Covers gates w := by
  obtain ⟨a, ha⟩ := Option.isSome_iff_exists.mp hp
  obtain ⟨xs, hxs, -⟩ := h.sums p a ha g hg
  intro w hw
  obtain ⟨x, -, hx⟩ := exists_mem_of_mapM_eq_ok hxs hw
  exact exists_operand_iff.mp ⟨x, hx⟩

/-- A sound expander that knows all that another one knows, and every gate that it alone visited. -/
structure Grows (gates : List Gate) (e e' : Expander) : Prop where
  sound : Sound gates e'
  knows : ∀ q, e.knows q = true → e'.knows q = true
  visited : e.visited ⊆ e'.visited
  fresh : ∀ q ∈ e'.visited, q ∈ e.visited ∨ e'.knows q = true

theorem Grows.refl (h : Sound gates e) : Grows gates e e :=
  ⟨h, fun _ hq ↦ hq, List.Subset.refl _, fun _ hq ↦ .inl hq⟩

theorem Grows.trans {e'' : Expander} (h : Grows gates e e') (h' : Grows gates e' e'') :
    Grows gates e e'' where
  sound := h'.sound
  knows := fun q hq ↦ h'.knows q (h.knows q hq)
  visited := List.Subset.trans h.visited h'.visited
  fresh := by
    intro q hq
    rcases h'.fresh q hq with hq | hq
    · exact (h.fresh q hq).imp_right (h'.knows q)
    · exact .inr hq

theorem Grows.covers (h : Grows gates e e') (hw : e.Covers gates w) : e'.Covers gates w :=
  fun q hq ↦ h.knows q (hw q hq)

theorem sound_empty : Sound gates {} :=
  ⟨nofun, nofun, nofun, nofun⟩

theorem mem_visited_mark : q ∈ (e.mark p).visited ↔ q ∈ e.visited ∨ q = p := by
  unfold Expander.mark
  dsimp only
  split_ifs with hp
  · exact ⟨.inl, fun h ↦ h.elim id fun he ↦ he ▸ hp⟩
  · rw [List.mem_append, List.mem_singleton]

theorem Sound.mark (h : Sound gates e) (hp : LinearAt gates p) : Sound gates (e.mark p) := by
  refine ⟨h.known, h.sums, fun q hq ↦ ?_, fun q hq ↦ ?_⟩
  · rcases mem_visited_mark.mp hq with hq | rfl
    · exact h.visited q hq
    · exact hp
  · exact mem_visited_mark.mpr (.inl (h.marked q hq))

/-- The operand that is found for an input of a gate unfolds it. -/
theorem Sound.operand (h : Sound gates e) (hnodup : (gates.flatMap Gate.outs).Nodup)
    (ha : e.operand gates w = .ok a) : Unfolds gates w a := by
  unfold Expander.operand at ha
  split at ha
  · rename_i q hq
    obtain ⟨-, g, hg, hw⟩ := linearProducer?_eq_some hq
    exact h.known q a (expansion_eq_ok.mp ha) g hg w hw
  · rename_i hq
    obtain rfl := Except.ok.inj ha
    exact .leaf (leaf_of_linearProducer? hnodup hq)

/-! ### One more known expansion -/

theorem lookup_learn :
    (e.learn p a).known.lookup q = if q = p then some a else e.known.lookup q := by
  change List.lookup q ((p, a) :: e.known) = _
  by_cases hq : q = p
  · rw [hq, List.lookup_cons_self, if_pos rfl]
  · rw [List.lookup_cons, beq_false_of_ne hq, if_neg hq]

section

variable {g : Gate} {xs : List (Affine Wire)} (h : Sound gates e) (hp : gates[p]? = some g)
  (hxs : g.ins.mapM (e.operand gates) = .ok xs) (ha : combine? g.op xs = some a)
include h hp hxs ha

/-- If the gate was known before then it had the same sum, so known operands stay as they are. -/
theorem Sound.operand_learn {b : Affine Wire} (hb : e.operand gates w = .ok b) :
    (e.learn p a).operand gates w = .ok b := by
  unfold Expander.operand at hb ⊢
  split at hb
  · rename_i q hq
    rw [expansion_eq_ok] at hb ⊢
    rw [lookup_learn]
    split_ifs with hqp
    · obtain ⟨ys, hys, hsum⟩ := h.sums q b hb g (hqp ▸ hp)
      obtain rfl := Except.ok.inj (hys.symm.trans hxs)
      exact ha.symm.trans hsum
    · exact hb
  · exact hb

theorem Sound.operands_learn {ws : List Wire} {ys : List (Affine Wire)}
    (hys : ws.mapM (e.operand gates) = .ok ys) :
    ws.mapM ((e.learn p a).operand gates) = .ok ys :=
  mapM_eq_ok.mpr ((mapM_eq_ok.mp hys).imp fun _ _ ↦ h.operand_learn hp hxs ha)

theorem Sound.learn (hnodup : (gates.flatMap Gate.outs).Nodup) (hshape : g.Shaped)
    (hmarked : p ∈ e.visited) : Sound gates (e.learn p a) where
  known := by
    intro q b hb d hd z hz
    rw [lookup_learn] at hb
    split_ifs at hb with hq
    · obtain rfl := Option.some.inj hb
      obtain rfl : g = d := Option.some.inj (hp.symm.trans (hq ▸ hd))
      have hunfolds := (mapM_eq_ok.mp hxs).imp fun _ _ ↦ h.operand hnodup
      exact .combine (List.mem_of_getElem? hp) hshape hunfolds hz ha
    · exact h.known q b hb d hd z hz
  sums := by
    intro q b hb d hd
    rw [lookup_learn] at hb
    split_ifs at hb with hq
    · obtain rfl := Option.some.inj hb
      obtain rfl : g = d := Option.some.inj (hp.symm.trans (hq ▸ hd))
      exact ⟨xs, h.operands_learn hp hxs ha hxs, ha⟩
    · obtain ⟨ys, hys, hsum⟩ := h.sums q b hb d hd
      exact ⟨ys, h.operands_learn hp hxs ha hys, hsum⟩
  visited := h.visited
  marked := by
    intro q hq
    rcases knows_learn.mp hq with rfl | hq
    · exact hmarked
    · exact h.marked q hq

end

end Expander

end Quadratize
