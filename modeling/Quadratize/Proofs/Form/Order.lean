import Quadratize.Proofs.Form.Simplify

/-!
# Collecting monic products

Sums are compared by their terms and monic products by their sides; both orders are linear.  A list
that is built by insertions is ascending and does not depend on the order of the insertions, although
a product that is inserted only adds its coefficient if its sides are already there.
-/

namespace Quadratize

open Std

namespace Sparse

variable {κ : Type} [Key κ]

/-- Compares terms, keys before coefficients. -/
def compareTerm : κ × Scalar → κ × Scalar → Ordering :=
  compareLex (compareOn (Key.rank ·.1)) (compareOn (·.2.val))

instance : TransCmp (compareTerm (κ := κ)) :=
  inferInstanceAs (TransCmp (compareLex _ _))

theorem compareTerms_eq (s t : List (κ × Scalar)) :
    compareTerms s t = List.compareLex compareTerm s t := by
  induction s generalizing t with
  | nil => cases t <;> rfl
  | cons u s ih =>
    cases t with
    | nil => rfl
    | cons v t =>
      rw [List.compareLex_cons_cons, ← ih]
      rfl

/-- Sums are ordered by their terms. -/
instance : Ord (Sparse κ) := ⟨fun s t ↦ compareTerms s.terms t.terms⟩

theorem compare_def (s t : Sparse κ) : compare s t = compareTerms s.terms t.terms := rfl

instance : TransOrd (Sparse κ) where
  eq_swap {s t} := by
    rw [compare_def, compare_def, compareTerms_eq, compareTerms_eq]
    exact OrientedCmp.eq_swap
  isLE_trans {s t u} := by
    rw [compare_def, compare_def, compare_def, compareTerms_eq, compareTerms_eq, compareTerms_eq]
    exact TransCmp.isLE_trans

instance : LawfulEqOrd (Sparse κ) where
  eq_of_compare h := ext (eq_of_compareTerms h)

end Sparse

namespace MonicProduct

variable {p q m : MonicProduct} {l : List MonicProduct}

instance : TransCmp MonicProduct.compare :=
  inferInstanceAs (TransCmp (compareLex (compareOn lhs) (compareOn rhs)))

/-! ## Insertion -/

theorem insert_of_lt (h : p.compare m = .lt) : p.insert (m :: l) = p :: m :: l := by
  rw [insert, h]

theorem insert_of_eq (h : p.compare m = .eq) :
    p.insert (m :: l) = { m with coeff := m.coeff + p.coeff } :: l := by
  rw [insert, h]

theorem insert_of_gt (h : p.compare m = .gt) : p.insert (m :: l) = m :: p.insert l := by
  rw [insert, h]

theorem compare_coeff (p m : MonicProduct) (c : Scalar) :
    p.compare { m with coeff := c } = p.compare m := rfl

theorem insert_comm_of_lt (h : p.compare q = .lt) (l : List MonicProduct) :
    p.insert (q.insert l) = q.insert (p.insert l) := by
  have hqp : q.compare p = .gt := OrientedCmp.gt_of_lt h
  induction l with
  | nil => rw [insert, insert, insert_of_lt h, insert_of_gt hqp, insert]
  | cons m l ih =>
    cases hp : p.compare m with
    | lt =>
      rw [insert_of_lt hp, insert_of_gt hqp]
      cases hq : q.compare m with
      | lt => rw [insert_of_lt hq, insert_of_lt h]
      | eq => rw [insert_of_eq hq, insert_of_lt ((compare_coeff p m _).trans hp)]
      | gt => rw [insert_of_gt hq, insert_of_lt hp]
    | eq =>
      have hq : q.compare m = .gt := TransCmp.gt_of_gt_of_eq hqp hp
      rw [insert_of_eq hp, insert_of_gt hq, insert_of_eq hp,
        insert_of_gt ((compare_coeff q m _).trans hq)]
    | gt =>
      have hq : q.compare m = .gt := TransCmp.gt_trans hqp hp
      rw [insert_of_gt hp, insert_of_gt hq, insert_of_gt hq, insert_of_gt hp, ih]

theorem insert_comm_of_eq (h : p.compare q = .eq) (l : List MonicProduct) :
    p.insert (q.insert l) = q.insert (p.insert l) := by
  have hqp : q.compare p = .eq := OrientedCmp.eq_comm.mp h
  obtain ⟨hl, hr⟩ := eq_of_compare h
  have hsum : { q with coeff := q.coeff + p.coeff } = { p with coeff := p.coeff + q.coeff } := by
    rw [hl, hr, add_comm]
  induction l with
  | nil => rw [insert, insert, insert_of_eq h, insert_of_eq hqp, hsum]
  | cons m l ih =>
    cases hp : p.compare m with
    | lt =>
      have hq : q.compare m = .lt := TransCmp.lt_of_eq_of_lt hqp hp
      rw [insert_of_lt hp, insert_of_lt hq, insert_of_eq h, insert_of_eq hqp, hsum]
    | eq =>
      have hq : q.compare m = .eq := TransCmp.eq_trans hqp hp
      rw [insert_of_eq hp, insert_of_eq hq, insert_of_eq ((compare_coeff p m _).trans hp),
        insert_of_eq ((compare_coeff q m _).trans hq), add_right_comm]
    | gt =>
      have hq : q.compare m = .gt := TransCmp.gt_of_eq_of_gt hqp hp
      rw [insert_of_gt hp, insert_of_gt hq, insert_of_gt hq, insert_of_gt hp, ih]

/-- Two products can be inserted in either order. -/
theorem insert_comm (p q : MonicProduct) (l : List MonicProduct) :
    p.insert (q.insert l) = q.insert (p.insert l) := by
  cases h : p.compare q with
  | lt => exact insert_comm_of_lt h l
  | eq => exact insert_comm_of_eq h l
  | gt => exact (insert_comm_of_lt (OrientedCmp.lt_of_gt h) l).symm

/-- The sides are in strictly ascending order. -/
def Ascending (l : List MonicProduct) : Prop :=
  l.Pairwise fun p q ↦ p.compare q = .lt

theorem Ascending.insert (h : Ascending l) (p : MonicProduct) : Ascending (p.insert l) := by
  induction l with
  | nil => exact List.pairwise_singleton _ p
  | cons m l ih =>
    obtain ⟨hm, hrest⟩ := List.pairwise_cons.mp h
    cases hp : p.compare m with
    | lt =>
      rw [insert_of_lt hp]
      refine List.pairwise_cons.mpr ⟨List.forall_mem_cons.mpr ⟨hp, fun q hq ↦ ?_⟩, h⟩
      exact TransCmp.lt_trans hp (hm q hq)
    | eq =>
      rw [insert_of_eq hp]
      exact List.pairwise_cons.mpr ⟨hm, hrest⟩
    | gt =>
      rw [insert_of_gt hp]
      refine List.pairwise_cons.mpr ⟨?_, ih hrest⟩
      exact forall_mem_insert (fun _ _ h ↦ h) (OrientedCmp.lt_of_gt hp) hm

/-- A product that comes after all others goes to the end. -/
theorem insert_of_forall_lt (h : ∀ m ∈ l, m.compare p = .lt) : p.insert l = l ++ [p] := by
  induction l with
  | nil => rfl
  | cons m l ih =>
    obtain ⟨hm, hrest⟩ := List.forall_mem_cons.mp h
    rw [insert_of_gt (OrientedCmp.gt_of_lt hm), ih hrest, List.cons_append]

/-! ## Collection -/

theorem Ascending.collect (h : Ascending l) (ms : List MonicProduct) :
    Ascending (collect l ms) := by
  induction ms generalizing l with
  | nil => exact h
  | cons p ms ih => exact ih (h.insert p)

/-- The order of the products does not matter. -/
theorem collect_perm {ms ns : List MonicProduct} (h : ms.Perm ns) : collect l ms = collect l ns :=
  h.foldl_eq' (fun p _ q _ l ↦ insert_comm q p l) l

/-- Products that are in ascending order already stay as they are. -/
theorem collect_of_ascending {ms : List MonicProduct} (h : Ascending (l ++ ms)) :
    collect l ms = l ++ ms := by
  induction ms generalizing l with
  | nil => exact (List.append_nil l).symm
  | cons p ms ih =>
    have hlast : ∀ m ∈ l, m.compare p = .lt := fun m hm ↦
      (List.pairwise_append.mp h).2.2 m hm p List.mem_cons_self
    rw [List.append_cons] at h ⊢
    rw [← ih h, ← insert_of_forall_lt hlast]
    rfl

end MonicProduct

/-! ## The products of a form -/

namespace QuadForm

open MonicProduct

theorem ascending_monicPart (f : QuadForm) : Ascending f.monicPart := by
  rw [monicPart_eq]
  exact Ascending.collect .nil _

end QuadForm

end Quadratize
