import Quadratize.Proofs.Constraint.Verify
import Quadratize.Proofs.Scalar.Bits

/-!
# The verdict on a witness

Taken as natural numbers, coefficients and values give every constraint a sum of products, and the
constraint holds exactly if the order divides that sum.  The verdict on a valid system is read off
these sums: the first of them that is no multiple of the order is reported, reduced into the field.
-/

namespace Quadratize

/-! ## Sums of representatives -/

/-- The sum of a row over natural numbers. -/
def Row.total (r : Slot → ℕ) (row : Row) : ℕ :=
  (row.terms.map fun t ↦ t.2.val * r t.1).sum

/-- The sum of products of a constraint over natural numbers. -/
def Constraint.total (r : Slot → ℕ) (c : Constraint) : ℕ :=
  (c.map fun p ↦ p.a.total r * p.b.total r).sum

namespace Scalar

theorem reduce_sum (l : List ℕ) : reduce l.sum = (l.map reduce).sum := Nat.cast_list_sum l

theorem reduce_eq_zero {n : ℕ} : reduce n = 0 ↔ order ∣ n := by
  rw [← val_eq_zero, val_reduce, Nat.dvd_iff_mod_eq_zero]

end Scalar

theorem Row.reduce_total (r : Slot → Scalar) (row : Row) :
    .reduce (row.total fun i ↦ (r i).val) = row.eval r := by
  rw [total, Scalar.reduce_sum, List.map_map, Sparse.eval]
  refine congrArg List.sum (List.map_congr_left fun t _ ↦ ?_)
  rw [Function.comp_apply, Scalar.reduce_mul, Scalar.reduce_val, Scalar.reduce_val]

theorem RowPair.reduce_total (r : Slot → Scalar) (p : RowPair) :
    .reduce ((p.a.total fun i ↦ (r i).val) * p.b.total fun i ↦ (r i).val) = p.eval r := by
  rw [Scalar.reduce_mul, Row.reduce_total, Row.reduce_total, eval]

theorem Constraint.reduce_total (r : Slot → Scalar) (c : Constraint) :
    .reduce (c.total fun i ↦ (r i).val) = (c.map (RowPair.eval r)).sum := by
  rw [total, Scalar.reduce_sum, List.map_map]
  refine congrArg List.sum (List.map_congr_left fun p _ ↦ ?_)
  exact RowPair.reduce_total r p

namespace Witness

variable {w w' : Witness}

/-- The sum of products of a constraint, over the representatives of the values of the slots. -/
def total (w : Witness) (c : Constraint) : ℕ :=
  c.total fun i ↦ (w.value i).val

/-- The value of a constraint is the class of its sum. -/
theorem constraint_eq_total {c : Constraint} (h : ∀ p ∈ c, ∀ i ∈ p.slots, i.val < w.size) :
    w.constraint c = .ok (.reduce (w.total c)) := by
  rw [constraint_eq_ok h, total, Constraint.reduce_total]

/-- The value of a constraint depends only on the slots that it mentions. -/
theorem constraint_congr {n : ℕ} {c : Constraint} (hc : ∀ p ∈ c, ∀ i ∈ p.slots, i.val < n)
    (hsize : n ≤ w.size) (hsize' : n ≤ w'.size) (h : w'.values.take n = w.values.take n) :
    w'.constraint c = w.constraint c := by
  have hvalue : ∀ i : Slot, i.val < n → w'.value i = w.value i := by
    intro i hi
    rw [value, value, get?, get?, ← List.getElem?_take_of_lt hi, h, List.getElem?_take_of_lt hi]
  rw [constraint_eq_ok fun p hp i hi ↦ (hc p hp i hi).trans_le hsize,
    constraint_eq_ok fun p hp i hi ↦ (hc p hp i hi).trans_le hsize']
  congr 2
  refine List.map_congr_left fun p hp ↦ ?_
  have hside {row : Row} (hrow : row.keys ⊆ p.slots) : row.eval w'.value = row.eval w.value :=
    Sparse.eval_congr fun i hi ↦ hvalue i (hc p hp i (hrow hi))
  rw [RowPair.eval, RowPair.eval, hside (List.subset_append_left _ _),
    hside (List.subset_append_right _ _)]

end Witness

namespace ConstraintSystem

variable {s : ConstraintSystem} {w w' : Witness}

/-! ## How a check ends -/

/-- A check of constraints that have values goes through all of them or stops at the first whose
value is not zero. -/
theorem checkFrom_cases {v : Constraint → Scalar} {cs : List Constraint}
    (h : ∀ c ∈ cs, w.constraint c = .ok (v c)) (i : ℕ) :
    ((∀ c ∈ cs, v c = 0) ∧ checkFrom w i cs = .ok ()) ∨
      ∃ j c, cs[j]? = some c ∧ v c ≠ 0 ∧ (∀ d ∈ cs.take j, v d = 0) ∧
        checkFrom w i cs = .error (.unsatisfied (i + j) (v c)) := by
  induction cs generalizing i with
  | nil => exact .inl ⟨List.forall_mem_nil _, rfl⟩
  | cons c cs ih =>
    obtain ⟨hc, hcs⟩ := List.forall_mem_cons.mp h
    have hstep : checkFrom w i (c :: cs) =
        if v c = 0 then checkFrom w (i + 1) cs else .error (.unsatisfied i (v c)) := by
      rw [checkFrom, hc]
      rfl
    rw [hstep]
    by_cases hzero : v c = 0
    · rw [if_pos hzero]
      rcases ih hcs (i + 1) with ⟨hall, hok⟩ | ⟨j, d, hd, hne, hbefore, herror⟩
      · exact .inl ⟨List.forall_mem_cons.mpr ⟨hzero, hall⟩, hok⟩
      · refine .inr ⟨j + 1, d, hd, hne, ?_, ?_⟩
        · exact List.forall_mem_cons.mpr ⟨hzero, hbefore⟩
        · rw [herror, Nat.add_right_comm, Nat.add_assoc]
    · rw [if_neg hzero]
      exact .inr ⟨0, c, rfl, hzero, List.forall_mem_nil _, rfl⟩

theorem checkFrom_congr {cs : List Constraint}
    (h : ∀ c ∈ cs, w'.constraint c = w.constraint c) (i : ℕ) :
    checkFrom w' i cs = checkFrom w i cs := by
  induction cs generalizing i with
  | nil => rfl
  | cons c cs ih =>
    obtain ⟨hc, hcs⟩ := List.forall_mem_cons.mp h
    rw [checkFrom, checkFrom, hc]
    apply bind_congr
    intro a
    rw [ih hcs]

/-! ## The verdict -/

/-- The verdicts that a witness of sufficient length can get. -/
inductive Verdict (s : ConstraintSystem) (w : Witness) : Except VerifyError Unit → Prop
  /-- The constant slot does not hold one. -/
  | constant (a : Scalar) (h : w.get? 0 = some a) (hne : a ≠ 1) :
    Verdict s w (.error (.constantNotOne a))
  /-- Every constraint holds. -/
  | satisfied (hone : ∀ a, w.get? 0 = some a → a = 1) (h : ∀ c ∈ s.constraints, order ∣ w.total c) :
    Verdict s w (.ok ())
  /-- A constraint does not hold, while those before it do. -/
  | unsatisfied (hone : ∀ a, w.get? 0 = some a → a = 1) (i : ℕ) (c : Constraint)
    (hc : s.constraints[i]? = some c) (hne : ¬order ∣ w.total c)
    (hbefore : ∀ d ∈ s.constraints.take i, order ∣ w.total d) :
    Verdict s w (.error (.unsatisfied i (.reduce (w.total c))))

theorem verify_of_size (hsize : s.numVariables ≤ w.size) :
    s.verify w = checkConstant w >>= fun _ ↦ checkFrom w 0 s.constraints :=
  if_neg (Nat.not_lt.mpr hsize)

theorem Valid.verdict (hs : s.Valid) (hsize : s.numVariables ≤ w.size) :
    Verdict s w (s.verify w) := by
  have hcheck := checkFrom_cases (w := w) (v := fun c ↦ .reduce (w.total c)) (fun c hc ↦
    Witness.constraint_eq_total fun p hp i hi ↦ (hs.bounded c hc p hp i hi).trans_le hsize) 0
  simp only [Scalar.reduce_eq_zero, ne_eq, Nat.zero_add] at hcheck
  have hrest (hone : ∀ a, w.get? 0 = some a → a = 1) :
      Verdict s w (checkFrom w 0 s.constraints) := by
    rcases hcheck with ⟨hall, hok⟩ | ⟨j, c, hc, hne, hbefore, herror⟩
    · rw [hok]
      exact .satisfied hone hall
    · rw [herror]
      exact .unsatisfied hone j c hc hne hbefore
  rw [verify_of_size hsize, checkConstant]
  cases hfirst : w.get? 0 with
  | none => exact hrest fun a ha ↦ nomatch hfirst.symm.trans ha
  | some a =>
    dsimp only
    by_cases ha : a = 1
    · rw [if_pos ha]
      exact hrest fun b hb ↦ Option.some.inj (hb.symm.trans hfirst) ▸ ha
    · rw [if_neg ha]
      exact .constant a hfirst ha

/-- The verdict depends only on the slots that the system has, and on the constant slot. -/
theorem Valid.verify_congr (hs : s.Valid) (hsize : s.numVariables ≤ w.size)
    (hsize' : s.numVariables ≤ w'.size)
    (hslots : w'.values.take s.numVariables = w.values.take s.numVariables)
    (hfirst : w'.get? 0 = w.get? 0) : s.verify w' = s.verify w := by
  have hchecks : checkFrom w' 0 s.constraints = checkFrom w 0 s.constraints :=
    checkFrom_congr (fun c hc ↦ Witness.constraint_congr (hs.bounded c hc) hsize hsize' hslots) 0
  rw [verify_of_size hsize, verify_of_size hsize', checkConstant, checkConstant, hfirst, hchecks]

namespace Verdict

variable {result : Except VerifyError Unit} {a : Scalar}

theorem eq_of_constant (h : Verdict s w result) (ha : w.get? 0 = some a) (hne : a ≠ 1) :
    result = .error (.constantNotOne a) := by
  cases h with
  | constant b hb _ => rw [Option.some.inj (hb.symm.trans ha)]
  | satisfied hone _ => exact absurd (hone a ha) hne
  | unsatisfied hone _ _ _ _ _ => exact absurd (hone a ha) hne

theorem eq_ok_iff (h : Verdict s w result) (hone : ∀ a, w.get? 0 = some a → a = 1) :
    result = .ok () ↔ ∀ c ∈ s.constraints, order ∣ w.total c := by
  cases h with
  | constant a ha hne => exact absurd (hone a ha) hne
  | satisfied _ h => exact ⟨fun _ ↦ h, fun _ ↦ rfl⟩
  | unsatisfied _ i c hc hne _ => exact ⟨nofun, fun h ↦ absurd (h c (List.mem_of_getElem? hc)) hne⟩

theorem exists_unsatisfied (h : Verdict s w result) (hone : ∀ a, w.get? 0 = some a → a = 1)
    (hfails : ∃ c ∈ s.constraints, ¬order ∣ w.total c) :
    ∃ i c, s.constraints[i]? = some c ∧ ¬order ∣ w.total c ∧
      (∀ d ∈ s.constraints.take i, order ∣ w.total d) ∧
      result = .error (.unsatisfied i (.reduce (w.total c))) := by
  cases h with
  | constant a ha hne => exact absurd (hone a ha) hne
  | satisfied _ h =>
    obtain ⟨c, hc, hne⟩ := hfails
    exact absurd (h c hc) hne
  | unsatisfied _ i c hc hne hbefore => exact ⟨i, c, hc, hne, hbefore, rfl⟩

end Verdict

/-- On a valid system and a witness that is long enough, verification fails only for the constant
slot or for a constraint.  If the constant slot does not hold something else than one, the witness
is accepted exactly if the order divides the sum of every constraint, and otherwise the first
constraint whose sum it does not divide is reported with that sum.  Slots beyond those of the system
do not matter, except that the constant slot is always looked at. -/
theorem verify_decides (hvalid : s.validate = .ok ()) (hsize : s.numVariables ≤ w.size) :
    (∀ expected actual, s.verify w ≠ .error (.tooShort expected actual)) ∧
      (∀ index size, s.verify w ≠ .error (.indexOutOfRange index size)) ∧
      (∀ a, w.get? 0 = some a → a ≠ 1 → s.verify w = .error (.constantNotOne a)) ∧
      ((∀ a, w.get? 0 = some a → a = 1) →
        (s.verify w = .ok () ↔ ∀ c ∈ s.constraints, order ∣ w.total c) ∧
        ((∃ c ∈ s.constraints, ¬order ∣ w.total c) →
          ∃ i c, s.constraints[i]? = some c ∧ ¬order ∣ w.total c ∧
            (∀ d ∈ s.constraints.take i, order ∣ w.total d) ∧
            s.verify w = .error (.unsatisfied i (.reduce (w.total c))))) ∧
      ∀ w' : Witness, s.numVariables ≤ w'.size →
        w'.values.take s.numVariables = w.values.take s.numVariables →
        (s.numVariables = 0 → w'.get? 0 = w.get? 0) → s.verify w' = s.verify w := by
  have hs : s.Valid := validate_eq_ok.mp hvalid
  have hverdict : Verdict s w (s.verify w) := hs.verdict hsize
  refine ⟨?_, ?_, fun a ↦ hverdict.eq_of_constant, fun hone ↦ ⟨hverdict.eq_ok_iff hone,
    hverdict.exists_unsatisfied hone⟩, ?_⟩
  · intro expected actual h
    rw [h] at hverdict
    cases hverdict
  · intro index size h
    rw [h] at hverdict
    cases hverdict
  · intro w' hsize' hslots hempty
    apply hs.verify_congr hsize hsize' hslots
    rcases Nat.eq_zero_or_pos s.numVariables with hzero | hpos
    · exact hempty hzero
    · rw [Witness.get?, Witness.get?, ← List.getElem?_take_of_lt hpos, hslots,
        List.getElem?_take_of_lt hpos]

/-- The product of two slots is a third one, one of them is five less than the other, and the third
one is zero. -/
def productSystem : ConstraintSystem where
  numVariables := 5
  constraints :=
    [[⟨.single 0 (-1), .single 4 1⟩, ⟨.single 2 1, .single 3 1⟩],
      [⟨.single 0 1, .ofTerms [(2, 1), (0, .reduce 5), (3, -1)]⟩],
      [⟨.single 4 1, .single 0 1⟩]]

/-- A witness for the product alone, with a slot that the system does not have. -/
def tamperedWitness : Witness :=
  ⟨[1, 0, .reduce 6, .reduce 7, .reduce 42, 0]⟩

theorem verify_decides_tampered :
    productSystem.validate = .ok () ∧ productSystem.numVariables ≤ tamperedWitness.size ∧
      ∃ i c, productSystem.constraints[i]? = some c ∧ ¬order ∣ tamperedWitness.total c ∧
        (∀ d ∈ productSystem.constraints.take i, order ∣ tamperedWitness.total d) ∧
        productSystem.verify tamperedWitness =
          .error (.unsatisfied i (.reduce (tamperedWitness.total c))) := by
  have hvalid : productSystem.validate = .ok () := by decide +kernel
  have hsize : productSystem.numVariables ≤ tamperedWitness.size := by decide
  refine ⟨hvalid, hsize, ?_⟩
  obtain ⟨-, -, -, hone, -⟩ := verify_decides hvalid hsize
  refine (hone ?_).2 ?_
  · intro a ha
    exact (Option.some.inj ha).symm
  · decide +kernel

end ConstraintSystem

end Quadratize
