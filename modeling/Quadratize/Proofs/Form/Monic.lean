import Mathlib.Data.Sym.Sym2
import Mathlib.Tactic.FieldSimp
import Quadratize.Proofs.Form.Order
import Quadratize.Proofs.Form.Standard

/-!
# Monic products

A scale that is not zero changes the leading coefficient of a sum and not its monic multiple.  So the
monic product of two sides depends neither on their order nor on a factor that one of them gives to
the other, and it is found again from the product that it is written as.
-/

namespace Quadratize

open Std

/-! ## Monic sums -/

namespace Affine

variable {κ : Type} [Key κ] {a : Affine κ} {c k : Scalar}

theorem scale_scale (a : Affine κ) (c d : Scalar) : (a.scale c).scale d = a.scale (c * d) :=
  Sparse.ext_of_eval fun r ↦ by
    rw [Sparse.eval_scale, Sparse.eval_scale, Sparse.eval_scale, mul_assoc]

theorem scale_constant (c d : Scalar) : (constant c : Affine κ).scale d = constant (c * d) :=
  Sparse.ext_of_eval fun r ↦ by
    rw [Sparse.eval_scale, constant, constant, Sparse.eval_single, Sparse.eval_single,
      mul_right_comm]

theorem asConstant?_scale (hk : k ≠ 0) (a : Affine κ) :
    asConstant? (a.scale k) = (asConstant? a).map (· * k) := by
  cases h : asConstant? a with
  | none =>
    rw [asConstant?_eq_none] at h
    exact asConstant?_eq_none.mpr (vars_scale hk a ▸ h)
  | some c =>
    rw [asConstant?_eq_some.mp h, scale_constant, asConstant?_constant, Option.map_some]

theorem leading?_scale (hk : k ≠ 0) (a : Affine κ) :
    (a.scale k).leading? = a.leading?.map (· * k) := by
  rw [Sparse.leading?, Sparse.leading?, Sparse.terms_scale hk, List.head?_map, Option.map_map,
    Option.map_map]
  rfl

theorem ne_zero_of_leading? (h : a.leading? = some c) : c ≠ 0 := by
  obtain ⟨t, ht, rfl⟩ := Option.map_eq_some_iff.mp h
  exact a.nonzero t (List.mem_of_head? ht)

theorem exists_leading? (h : vars a ≠ []) : ∃ c, a.leading? = some c := by
  rw [Sparse.leading?]
  cases hterms : a.terms with
  | nil => exact absurd (by rw [vars, hterms, List.filterMap_nil]) h
  | cons t ts => exact ⟨t.2, rfl⟩

variable {a : Affine Wire}

theorem monic_eq (h : a.leading? = some c) : monic a = (a.scale c⁻¹, c) := by
  rw [monic, h]
  simp only [Scalar.inverse?_eq_some (ne_zero_of_leading? h)]

theorem leading?_monic (h : a.leading? = some c) : (monic a).1.leading? = some 1 := by
  have hc := ne_zero_of_leading? h
  rw [monic_eq h, leading?_scale (inv_ne_zero hc), h, Option.map_some, mul_inv_cancel₀ hc]

theorem monic_of_leading?_one (h : a.leading? = some 1) : monic a = (a, 1) := by
  rw [monic_eq h, inv_one, scale_one]

/-- A scale goes into the leading coefficient. -/
theorem monic_scale (hk : k ≠ 0) (h : a.leading? = some c) :
    monic (a.scale k) = ((monic a).1, (monic a).2 * k) := by
  have hscaled : (a.scale k).leading? = some (c * k) := by
    rw [leading?_scale hk, h, Option.map_some]
  have hinv : k * (c * k)⁻¹ = c⁻¹ := by field_simp
  rw [monic_eq hscaled, monic_eq h, scale_scale, hinv]

end Affine

/-! ## Products with the same meaning -/

namespace Product

/-- The product with its sides in the other order. -/
def swap (p : Product) : Product :=
  ⟨p.rhs, p.lhs⟩

/-- Multiplies the left side by a scalar and the right side by its inverse. -/
def balance (k : Scalar) (p : Product) : Product :=
  ⟨p.lhs.scale k, p.rhs.scale k⁻¹⟩

/-- The monic multiples of the sides, in no order. -/
def monicSides (p : Product) : Sym2 (Affine Wire) :=
  s((Affine.monic p.lhs).1, (Affine.monic p.rhs).1)

theorem asAffine?_swap (p : Product) : p.swap.asAffine? = p.asAffine? := by
  rw [asAffine?, asAffine?, swap]
  cases hl : Affine.asConstant? p.lhs with
  | none => cases hr : Affine.asConstant? p.rhs <;> rfl
  | some c =>
    cases hr : Affine.asConstant? p.rhs with
    | none => rfl
    | some d =>
      rw [Affine.asConstant?_eq_some.mp hl, Affine.asConstant?_eq_some.mp hr]
      simp only [Affine.scale_constant, mul_comm]

theorem asAffine?_balance {k : Scalar} (hk : k ≠ 0) (p : Product) :
    (p.balance k).asAffine? = p.asAffine? := by
  rw [asAffine?, asAffine?, balance, Affine.asConstant?_scale (inv_ne_zero hk),
    Affine.asConstant?_scale hk]
  cases hr : Affine.asConstant? p.rhs with
  | some c =>
    have hfactor : k * (c * k⁻¹) = c := by field_simp
    simp only [Option.map_some, Affine.scale_scale, hfactor]
  | none =>
    cases hl : Affine.asConstant? p.lhs with
    | some c =>
      have hfactor : k⁻¹ * (c * k) = c := by field_simp
      simp only [Option.map_some, Option.map_none, Affine.scale_scale, hfactor]
    | none => rfl

end Product

namespace MonicProduct

open Product

variable {m n : MonicProduct} {p : Product}

/-- The product of two sides, the smaller one on the left. -/
def sorted (a b : Affine Wire) (c : Scalar) : MonicProduct :=
  if Ord.compare a b = .gt then ⟨b, a, c⟩ else ⟨a, b, c⟩

theorem ofProduct_eq (p : Product) : ofProduct p = sorted (Affine.monic p.lhs).1
    (Affine.monic p.rhs).1 ((Affine.monic p.lhs).2 * (Affine.monic p.rhs).2) := rfl

theorem sorted_of_isLE {a b : Affine Wire} (h : (Ord.compare a b).isLE) (c : Scalar) :
    sorted a b c = ⟨a, b, c⟩ :=
  if_neg (Ordering.isLE_iff_ne_gt.mp h)

theorem sorted_comm (a b : Affine Wire) (c : Scalar) : sorted a b c = sorted b a c := by
  rw [sorted, sorted]
  cases h : Ord.compare a b with
  | lt => rw [OrientedCmp.gt_of_lt h, if_neg nofun, if_pos rfl]
  | eq => rw [LawfulEqOrd.eq_of_compare h, ReflOrd.compare_self]
  | gt => rw [OrientedCmp.lt_of_gt h, if_pos rfl, if_neg nofun]

theorem ofProduct_swap (p : Product) : ofProduct p.swap = ofProduct p := by
  rw [ofProduct_eq, ofProduct_eq, sorted_comm, mul_comm]
  rfl

theorem ofProduct_balance {k : Scalar} (hk : k ≠ 0) (h : p.asAffine? = none) :
    ofProduct (p.balance k) = ofProduct p := by
  obtain ⟨hl, hr⟩ := asAffine?_eq_none.mp h
  obtain ⟨c, hc⟩ := Affine.exists_leading? hl
  obtain ⟨d, hd⟩ := Affine.exists_leading? hr
  have hcoeff : (Affine.monic p.lhs).2 * k * ((Affine.monic p.rhs).2 * k⁻¹) =
      (Affine.monic p.lhs).2 * (Affine.monic p.rhs).2 := by field_simp
  rw [ofProduct_eq, ofProduct_eq, balance, Affine.monic_scale hk hc,
    Affine.monic_scale (inv_ne_zero hk) hd, hcoeff]

/-- The sides are monic and in order. -/
structure Normal (m : MonicProduct) : Prop where
  leading_lhs : m.lhs.leading? = some 1
  leading_rhs : m.rhs.leading? = some 1
  ordered : (Ord.compare m.lhs m.rhs).isLE

theorem normal_sorted {a b : Affine Wire} (ha : a.leading? = some 1) (hb : b.leading? = some 1)
    (c : Scalar) : (sorted a b c).Normal := by
  rw [sorted]
  split
  · rename_i h
    exact ⟨hb, ha, Ordering.isLE_of_eq_lt (OrientedCmp.lt_of_gt h)⟩
  · rename_i h
    exact ⟨ha, hb, Ordering.isLE_iff_ne_gt.mpr h⟩

theorem normal_ofProduct (h : p.asAffine? = none) : (ofProduct p).Normal := by
  obtain ⟨hl, hr⟩ := asAffine?_eq_none.mp h
  obtain ⟨c, hc⟩ := Affine.exists_leading? hl
  obtain ⟨d, hd⟩ := Affine.exists_leading? hr
  exact normal_sorted (Affine.leading?_monic hc) (Affine.leading?_monic hd) _

/-- The monic product is found again, since its coefficient is that of the left side. -/
theorem ofProduct_toProduct (hm : m.Normal) (hc : m.coeff ≠ 0) : ofProduct m.toProduct = m := by
  rw [ofProduct_eq, toProduct, Affine.monic_scale hc hm.leading_lhs,
    Affine.monic_of_leading?_one hm.leading_lhs, Affine.monic_of_leading?_one hm.leading_rhs,
    sorted_of_isLE hm.ordered, one_mul, mul_one]

theorem monicSides_toProduct (hm : m.Normal) (hc : m.coeff ≠ 0) :
    m.toProduct.monicSides = s(m.lhs, m.rhs) := by
  rw [monicSides, toProduct, Affine.monic_scale hc hm.leading_lhs,
    Affine.monic_of_leading?_one hm.leading_lhs, Affine.monic_of_leading?_one hm.leading_rhs]

/-- Products in ascending order differ in their sides, also if the order of the sides is ignored. -/
theorem sides_ne_of_lt (hm : m.Normal) (hn : n.Normal) (h : m.compare n = .lt) :
    s(m.lhs, m.rhs) ≠ s(n.lhs, n.rhs) := by
  have hsides : ¬ (m.lhs = n.lhs ∧ m.rhs = n.rhs) := by
    rintro ⟨hl, hr⟩
    have hsame : m.compare n = n.compare n := by
      rw [MonicProduct.compare, hl, hr]
      rfl
    have hself : n.compare n = .eq := ReflCmp.compare_self
    rw [h, hself] at hsame
    cases hsame
  intro he
  rcases Sym2.eq_iff.mp he with he | ⟨hl, hr⟩
  · exact hsides he
  · have hle := hn.ordered
    rw [← hl, ← hr] at hle
    have heq := LawfulEqOrd.eq_of_compare (OrientedCmp.isLE_antisymm hm.ordered hle)
    exact hsides ⟨heq.trans hr, heq.symm.trans hl⟩

end MonicProduct

end Quadratize
