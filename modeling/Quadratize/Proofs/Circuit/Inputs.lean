import Quadratize.Circuit.Inputs
import Quadratize.Proofs.Circuit.Acyclic

/-!
# The constant input

Moving the constant input to the front renames the primary inputs.  New names differ from each
other, and they are checked against the names of all other wires, so the renaming is injective.
-/

namespace Quadratize.Circuit

theorem lastToFront_perm {α : Type} (xs : List α) : (lastToFront xs).Perm xs := by
  cases h : xs.getLast? with
  | none =>
    obtain rfl := List.getLast?_eq_none_iff.mp h
    exact .nil
  | some x =>
    obtain ⟨ys, rfl⟩ := List.getLast?_eq_some_iff.mp h
    rw [lastToFront, h, List.dropLast_concat]
    exact List.perm_append_comm

theorem map_lastToFront {α β : Type} (f : α → β) (xs : List α) :
    (lastToFront xs).map f = lastToFront (xs.map f) := by
  rw [lastToFront, lastToFront, List.map_append, List.getLast?_map, List.map_dropLast]
  cases xs.getLast? <;> rfl

theorem head?_lastToFront {α : Type} (xs : List α) : (lastToFront xs).head? = xs.getLast? := by
  cases h : xs.getLast? with
  | none =>
    obtain rfl := List.getLast?_eq_none_iff.mp h
    rfl
  | some x =>
    rw [lastToFront, h]
    rfl

/-! ## Renaming by pairs -/

theorem renameBy_of_notMem {pairs : List (Wire × Wire)} {w : Wire} (h : w ∉ pairs.map Prod.fst) :
    renameBy pairs w = w := by
  rw [renameBy, Wire.lookup_eq_none h, Option.getD_none]

theorem mem_of_renameBy {pairs : List (Wire × Wire)} {w : Wire} (h : w ∈ pairs.map Prod.fst) :
    (w, renameBy pairs w) ∈ pairs := by
  induction pairs with
  | nil => cases h
  | cons p pairs ih =>
    obtain ⟨v, u⟩ := p
    by_cases he : w = v
    · subst he
      simp [renameBy]
    · have hmem : w ∈ pairs.map Prod.fst := (List.mem_cons.mp h).resolve_left he
      have hbeq : (w == v) = false := by simpa using he
      have hlookup : renameBy ((v, u) :: pairs) w = renameBy pairs w := by
        simp [renameBy, List.lookup_cons, hbeq]
      rw [hlookup]
      exact List.mem_cons_of_mem _ (ih hmem)

/-! ## Shifting -/

/-- The new number of a primary input: zero for the last one, the next number for others. -/
def Shifts (last w v : Wire) : Prop :=
  if w = last then v = Wire.first else v.id = w.id + 1

theorem shifts_of_shiftInput {last w v : Wire} (h : shiftInput last w = .ok v) :
    Shifts last w v := by
  unfold shiftInput at h
  unfold Shifts
  split_ifs at h ⊢ with hw
  · exact (Except.ok.inj h).symm
  · unfold Wire.ofNat? at h
    split_ifs at h with hlt
    obtain rfl := Except.ok.inj h
    rfl

theorem Shifts.injective {last v w u : Wire} (hv : Shifts last v u) (hw : Shifts last w u) :
    v = w := by
  unfold Shifts at hv hw
  split_ifs at hv hw with h₁ h₂ h₂
  · rw [h₁, h₂]
  · rw [hv] at hw
    cases hw
  · rw [hw] at hv
    cases hv
  · exact Wire.ext (by omega)

theorem shiftInputs_eq_ok {others : List Wire} {last : Wire} {ws : List Wire}
    {pairs : List (Wire × Wire)} (h : shiftInputs others last ws = .ok pairs) :
    pairs.map Prod.fst = ws ∧ ∀ p ∈ pairs, Shifts last p.1 p.2 ∧ p.2 ∉ others := by
  induction ws generalizing pairs with
  | nil =>
    obtain rfl := Except.ok.inj h
    exact ⟨rfl, nofun⟩
  | cons w ws ih =>
    obtain ⟨v, hv, h⟩ := bind_eq_ok.mp h
    split_ifs at h with hmem
    · obtain ⟨_, hthrow, -⟩ := bind_eq_ok.mp h
      cases hthrow
    · obtain ⟨rest, hrest, h⟩ := bind_eq_ok.mp h
      obtain rfl := Except.ok.inj h
      obtain ⟨hkeys, hpairs⟩ := ih hrest
      refine ⟨by rw [List.map_cons, hkeys], List.forall_mem_cons.mpr ⟨?_, hpairs⟩⟩
      exact ⟨shifts_of_shiftInput hv, hmem⟩

/-- Shifting fails at a wire with the last number, or where the new name is taken. -/
theorem shiftInputs_eq_error {others : List Wire} {last : Wire} {ws : List Wire} {e : Malformed}
    (h : shiftInputs others last ws = .error e) :
    ∃ w ∈ ws, e = .unshiftable w ∧ wireLimit ≤ w.id + 1 ∨
      ∃ v ∈ others, Shifts last w v ∧ e = .collision w v := by
  induction ws with
  | nil => cases h
  | cons w ws ih =>
    rcases bind_eq_error.mp h with hshift | ⟨v, hv, h⟩
    · refine ⟨w, List.mem_cons_self, .inl ?_⟩
      unfold shiftInput at hshift
      split_ifs at hshift with hlast
      unfold Wire.ofNat? at hshift
      split_ifs at hshift with hlt
      exact ⟨(Except.error.inj hshift).symm, Nat.le_of_not_lt hlt⟩
    · split_ifs at h with hmem
      · refine ⟨w, List.mem_cons_self, .inr ⟨v, hmem, shifts_of_shiftInput hv, ?_⟩⟩
        rcases bind_eq_error.mp h with h | ⟨_, h, -⟩
        · exact (Except.error.inj h).symm
        · cases h
      · rcases bind_eq_error.mp h with h | ⟨_, -, h⟩
        · obtain ⟨u, hu, he⟩ := ih h
          exact ⟨u, List.mem_cons_of_mem _ hu, he⟩
        · cases h

/-- The renaming of shifted inputs keeps the wires of the circuit apart. -/
theorem injOn_shiftInputs {c : Circuit} {last : Wire} {pairs : List (Wire × Wire)}
    (h : shiftInputs c.internalWires last c.inputWires = .ok pairs) :
    Set.InjOn (renameBy pairs) {w | w ∈ c.wires} := by
  obtain ⟨hkeys, hpairs⟩ := shiftInputs_eq_ok h
  have hinput {w : Wire} (hw : w ∈ c.inputWires) :
      Shifts last w (renameBy pairs w) ∧ renameBy pairs w ∉ c.internalWires :=
    hpairs _ (mem_of_renameBy (hkeys ▸ hw))
  have hother {w : Wire} (hw : w ∉ c.inputWires) : renameBy pairs w = w :=
    renameBy_of_notMem (hkeys ▸ hw)
  have hinternal {w : Wire} (hmem : w ∈ c.wires) (hw : w ∉ c.inputWires) : w ∈ c.internalWires :=
    List.mem_filter.mpr ⟨hmem, by simpa using hw⟩
  intro v hv w hw he
  by_cases hvi : v ∈ c.inputWires
  · by_cases hwi : w ∈ c.inputWires
    · exact (hinput hvi).1.injective (he ▸ (hinput hwi).1)
    · rw [hother hwi] at he
      exact absurd (hinternal hw hwi) (he ▸ (hinput hvi).2)
  · by_cases hwi : w ∈ c.inputWires
    · rw [hother hvi] at he
      exact absurd (hinternal hv hvi) (he ▸ (hinput hwi).2)
    · rwa [hother hvi, hother hwi] at he

/-! ## Normalization -/

/-- Whether the first primary input is marked as the constant one. -/
def leadsWithOne (c : Circuit) : Bool :=
  c.inputs.head?.any fun i ↦ Text.occursIn oneMark i.note

/-- The primary input that carries the constant one. -/
def constantInput? (c : Circuit) : Option PrimaryInput :=
  if c.leadsWithOne then c.inputs.head? else c.inputs.getLast?

/-- A list along the primary inputs, with the entry of the constant input moved to the front. -/
def constantFirst {α : Type} (c : Circuit) (xs : List α) : List α :=
  if c.leadsWithOne then xs else lastToFront xs

theorem exists_constantInput? {c : Circuit} (h : c.inputs ≠ []) :
    ∃ i, c.constantInput? = some i := by
  unfold constantInput?
  split_ifs
  · exact ⟨_, List.head?_eq_some_head h⟩
  · exact ⟨_, List.getLast?_eq_some_getLast h⟩

/-- What comes first belongs to the constant input. -/
theorem head?_constantFirst {α : Type} (c : Circuit) (f : PrimaryInput → α) :
    (c.constantFirst (c.inputs.map f)).head? = c.constantInput?.map f := by
  unfold constantFirst constantInput?
  split_ifs
  · exact List.head?_map
  · rw [head?_lastToFront, List.getLast?_map]

/-- Either the constant input is in front already, or the circuit is renamed injectively and its
inputs are rotated. -/
theorem normalizeInputs_cases {c d : Circuit} {changed : Bool}
    (h : c.normalizeInputs = .ok (d, changed)) :
    (c.leadsWithOne = true ∧ d = c) ∨
      (c.leadsWithOne = false ∧ ∃ f, Set.InjOn f {w | w ∈ c.wires} ∧
        d = { c.rename f with inputs := lastToFront (c.rename f).inputs }) := by
  unfold normalizeInputs at h
  split at h
  · rename_i first last hfirst hlast
    have hleads : c.leadsWithOne = Text.occursIn oneMark first.note := by
      rw [leadsWithOne, hfirst, Option.any_some]
    split_ifs at h with hmark
    · obtain ⟨rfl, -⟩ := Prod.mk.inj (Except.ok.inj h)
      exact .inl ⟨hleads.trans hmark, rfl⟩
    · obtain ⟨pairs, hpairs, h⟩ := bind_eq_ok.mp h
      obtain ⟨rfl, -⟩ := Prod.mk.inj (Except.ok.inj h)
      refine .inr ⟨?_, renameBy pairs, injOn_shiftInputs hpairs, rfl⟩
      rw [hleads]
      simpa using hmark
  · cases h

/-- Normalization of a circuit with primary inputs fails only where an input cannot be shifted. -/
theorem normalizeInputs_eq_error {c : Circuit} {e : Malformed} (hinputs : c.inputs ≠ [])
    (h : c.normalizeInputs = .error e) :
    ∃ w ∈ c.inputWires, e = .unshiftable w ∧ wireLimit ≤ w.id + 1 ∨
      ∃ v ∈ c.internalWires, e = .collision w v := by
  unfold normalizeInputs at h
  rw [List.head?_eq_some_head hinputs, List.getLast?_eq_some_getLast hinputs] at h
  dsimp only at h
  split_ifs at h
  rcases bind_eq_error.mp h with h | ⟨_, -, h⟩
  · obtain ⟨w, hw, he | ⟨v, hv, -, he⟩⟩ := shiftInputs_eq_error h
    · exact ⟨w, hw, .inl he⟩
    · exact ⟨w, hw, .inr ⟨v, hv, he⟩⟩
  · cases h

theorem acyclic_normalizeInputs {c d : Circuit} {changed : Bool}
    (h : c.normalizeInputs = .ok (d, changed)) : d.Acyclic ↔ c.Acyclic := by
  rcases normalizeInputs_cases h with ⟨-, rfl⟩ | ⟨-, f, hf, rfl⟩
  · rfl
  · exact acyclic_rename hf

theorem Valid.normalizeInputs {c d : Circuit} {changed : Bool} (hc : c.Valid)
    (h : c.normalizeInputs = .ok (d, changed)) : d.Valid := by
  rcases normalizeInputs_cases h with ⟨-, rfl⟩ | ⟨-, f, hf, rfl⟩
  · exact hc
  · refine (hc.rename hf).of_perm ?_ (.refl _) fun w hw ↦ hw
    exact (lastToFront_perm _).map PrimaryInput.wire

theorem length_inputs_normalizeInputs {c d : Circuit} {changed : Bool}
    (h : c.normalizeInputs = .ok (d, changed)) : d.inputs.length = c.inputs.length := by
  rcases normalizeInputs_cases h with ⟨-, rfl⟩ | ⟨-, f, -, rfl⟩
  · rfl
  · rw [(lastToFront_perm _).length_eq, rename, List.length_map]

theorem length_outputs_normalizeInputs {c d : Circuit} {changed : Bool}
    (h : c.normalizeInputs = .ok (d, changed)) : d.outputs.length = c.outputs.length := by
  rcases normalizeInputs_cases h with ⟨-, rfl⟩ | ⟨-, f, -, rfl⟩
  · rfl
  · exact List.length_map _

/-- Normalization rotates the values of the primary inputs and keeps those of the outputs. -/
theorem Relates.normalizeInputs {c d : Circuit} {changed : Bool} {ins outs : List Scalar}
    (hrel : c.Relates ins outs) (hc : c.Valid) (h : c.normalizeInputs = .ok (d, changed)) :
    d.Relates (c.constantFirst ins) outs := by
  rcases normalizeInputs_cases h with ⟨hone, rfl⟩ | ⟨hone, f, hf, rfl⟩
  · rw [constantFirst, if_pos hone]
    exact hrel
  · obtain ⟨r, hr, rfl, rfl⟩ := hrel
    obtain ⟨q, hq, hqr⟩ := hr.exists_rename hc.gates hf
    refine ⟨q, hq, ?_, ?_⟩
    · have hwires : ({ c.rename f with inputs := lastToFront (c.rename f).inputs } :
          Circuit).inputWires = lastToFront (c.inputWires.map f) := by
        rw [inputWires, map_lastToFront, ← inputWires, inputWires_rename]
      rw [hwires, map_lastToFront, List.map_map, constantFirst, hone]
      refine congrArg lastToFront (List.map_congr_left fun w hw ↦ ?_)
      exact hqr w (mem_wires_of_input hw)
    · change (c.outputs.map f).map q = _
      rw [List.map_map]
      exact List.map_congr_left fun w hw ↦ hqr w (mem_wires_of_output hw)

end Quadratize.Circuit
