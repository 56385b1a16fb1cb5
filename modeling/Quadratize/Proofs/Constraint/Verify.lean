import Quadratize.Constraint.Verify
import Quadratize.Proofs.Except
import Quadratize.Proofs.Sparse.Eval

/-!
# Verification

For a valid system and a witness that is long enough, verification decides whether the constant
slot holds one and every constraint vanishes.
-/

namespace Quadratize

/-- Slots can be written as numerals. -/
instance : NeZero slotLimit := ⟨by decide⟩

namespace RowPair

/-- The slots that a pair of rows mentions. -/
def slots (p : RowPair) : List Slot :=
  p.a.keys ++ p.b.keys

/-- The product of the values of the rows. -/
def eval (r : Slot → Scalar) (p : RowPair) : Scalar :=
  p.a.eval r * p.b.eval r

end RowPair

namespace Witness

variable {w : Witness}

/-- The value of a slot, or zero if there is none. -/
def value (w : Witness) (i : Slot) : Scalar :=
  (w.get? i.val).getD 0

theorem get?_of_lt {i : Slot} (h : i.val < w.size) : w.get? i.val = some (w.value i) := by
  rw [value, get?, List.getElem?_eq_getElem h, Option.getD_some]

theorem slot_eq_ok {i : Slot} (h : i.val < w.size) : w.slot i = .ok (w.value i) := by
  rw [slot, get?_of_lt h]

theorem constraint_eq_ok {c : Constraint} (h : ∀ p ∈ c, ∀ i ∈ p.slots, i.val < w.size) :
    w.constraint c = .ok (c.map (RowPair.eval w.value)).sum := by
  induction c with
  | nil => rfl
  | cons p c ih =>
    obtain ⟨hp, hc⟩ := List.forall_mem_cons.mp h
    have hrow {r : Row} (hr : r.keys ⊆ p.slots) : w.row r = .ok (r.eval w.value) :=
      Sparse.tryEval_eq_ok fun i hi ↦ slot_eq_ok (hp i (hr hi))
    refine bind_eq_ok.mpr ⟨_, hrow (List.subset_append_left _ _), ?_⟩
    refine bind_eq_ok.mpr ⟨_, hrow (List.subset_append_right _ _), ?_⟩
    exact bind_eq_ok.mpr ⟨_, ih hc, rfl⟩

end Witness

namespace ConstraintSystem

variable {s : ConstraintSystem} {w : Witness}

/-! ## Valid systems -/

/-- Every constraint has a row, and no row leaves the witness. -/
structure Valid (s : ConstraintSystem) : Prop where
  nonempty : ∀ c ∈ s.constraints, c ≠ []
  bounded : ∀ c ∈ s.constraints, ∀ p ∈ c, ∀ i ∈ p.slots, i.val < s.numVariables

theorem highSlot?_eq_none {limit : Nat} {row : Row} :
    highSlot? limit row = none ↔ ∀ i ∈ row.keys, i.val < limit := by
  simp only [highSlot?, Option.map_eq_none_iff, List.find?_eq_none, decide_eq_true_eq, not_le,
    Sparse.mem_keys, forall_exists_index, and_imp, forall_apply_eq_imp_iff₂]

theorem pairFault?_eq_none {limit i j : Nat} {p : RowPair} :
    pairFault? limit i j p = none ↔ ∀ k ∈ p.slots, k.val < limit := by
  rw [RowPair.slots, List.forall_mem_append, ← highSlot?_eq_none, ← highSlot?_eq_none, pairFault?]
  cases highSlot? limit p.a with
  | none =>
    rw [and_iff_right rfl]
    cases highSlot? limit p.b with
    | none => exact ⟨fun _ ↦ rfl, fun _ ↦ rfl⟩
    | some slot => exact ⟨nofun, nofun⟩
  | some slot => exact ⟨nofun, fun h ↦ nomatch h.1⟩

theorem constraintFault?_eq_none {limit i : Nat} {c : Constraint} :
    constraintFault? limit i c = none ↔ c ≠ [] ∧ ∀ p ∈ c, ∀ k ∈ p.slots, k.val < limit := by
  unfold constraintFault?
  split_ifs with hempty
  · exact ⟨nofun, fun h ↦ absurd (List.isEmpty_iff.mp hempty) h.1⟩
  · rw [List.findSome?_eq_none_iff, and_iff_right fun h ↦ hempty (List.isEmpty_iff.mpr h)]
    constructor
    · intro h p hp
      obtain ⟨j, hj⟩ := List.mem_iff_getElem?.mp hp
      exact pairFault?_eq_none.mp (h (p, j) (List.mem_zipIdx_iff_getElem?.mpr hj))
    · intro h x hx
      exact pairFault?_eq_none.mpr
        (h x.1 (List.mem_of_getElem? (List.mem_zipIdx_iff_getElem?.mp hx)))

/-- Validation accepts exactly the valid systems. -/
theorem validate_eq_ok : s.validate = .ok () ↔ s.Valid := by
  have hfault : s.fault? = none ↔ s.Valid := by
    rw [fault?, List.findSome?_eq_none_iff]
    constructor
    · intro h
      have hc : ∀ c ∈ s.constraints, c ≠ [] ∧ ∀ p ∈ c, ∀ k ∈ p.slots, k.val < s.numVariables := by
        intro c hc
        obtain ⟨i, hi⟩ := List.mem_iff_getElem?.mp hc
        exact constraintFault?_eq_none.mp (h (c, i) (List.mem_zipIdx_iff_getElem?.mpr hi))
      exact ⟨fun c hmem ↦ (hc c hmem).1, fun c hmem ↦ (hc c hmem).2⟩
    · intro h x hx
      have hmem := List.mem_of_getElem? (List.mem_zipIdx_iff_getElem?.mp hx)
      exact constraintFault?_eq_none.mpr ⟨h.nonempty x.1 hmem, h.bounded x.1 hmem⟩
  rw [← hfault, validate]
  cases s.fault? with
  | none => exact ⟨fun _ ↦ rfl, fun _ ↦ rfl⟩
  | some e => exact ⟨nofun, nofun⟩

/-! ## The verdict -/

theorem checkConstant_eq_ok : checkConstant w = .ok () ↔ ∀ a ∈ w.get? 0, a = 1 := by
  unfold checkConstant
  cases w.get? 0 with
  | none => exact ⟨fun _ ↦ nofun, fun _ ↦ rfl⟩
  | some a =>
    simp only [Option.mem_some_iff, forall_eq']
    split_ifs with ha
    · exact ⟨fun _ ↦ ha, fun _ ↦ rfl⟩
    · exact ⟨nofun, fun h ↦ absurd h ha⟩

theorem checkFrom_eq_ok {i : Nat} {cs : List Constraint} :
    checkFrom w i cs = .ok () ↔ ∀ c ∈ cs, w.constraint c = .ok 0 := by
  induction cs generalizing i with
  | nil => exact ⟨fun _ ↦ nofun, fun _ ↦ rfl⟩
  | cons c cs ih =>
    rw [checkFrom, bind_eq_ok, List.forall_mem_cons]
    constructor
    · rintro ⟨a, ha, h⟩
      split_ifs at h with hzero
      exact ⟨hzero ▸ ha, ih.mp h⟩
    · rintro ⟨hc, hcs⟩
      refine ⟨0, hc, ?_⟩
      rw [if_pos rfl]
      exact ih.mpr hcs

theorem verify_eq_ok : s.verify w = .ok () ↔ s.numVariables ≤ w.size ∧
    (∀ a ∈ w.get? 0, a = 1) ∧ ∀ c ∈ s.constraints, w.constraint c = .ok 0 := by
  unfold verify
  split_ifs with hsize
  · exact ⟨nofun, fun h ↦ absurd h.1 (Nat.not_le.mpr hsize)⟩
  · rw [bind_eq_ok, and_iff_right (Nat.not_lt.mp hsize), ← checkConstant_eq_ok, ← checkFrom_eq_ok]
    exact ⟨fun ⟨(), hone, h⟩ ↦ ⟨hone, h⟩, fun ⟨hone, h⟩ ↦ ⟨(), hone, h⟩⟩

/-- The verifier of a valid system decides satisfaction. -/
theorem Valid.verify_eq_ok (hs : s.Valid) (hsize : s.numVariables ≤ w.size) :
    s.verify w = .ok () ↔ (∀ a ∈ w.get? 0, a = 1) ∧
      ∀ c ∈ s.constraints, (c.map (RowPair.eval w.value)).sum = 0 := by
  rw [ConstraintSystem.verify_eq_ok, and_iff_right hsize]
  refine and_congr_right fun _ ↦ forall₂_congr fun c hc ↦ ?_
  rw [Witness.constraint_eq_ok fun p hp i hi ↦ (hs.bounded c hc p hp i hi).trans_le hsize,
    Except.ok.injEq]

end ConstraintSystem

end Quadratize
