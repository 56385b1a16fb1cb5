import Quadratize.Form.Simplify
import Quadratize.Proofs.Form.Eval

/-!
# Simplification keeps the value of a form

Dividing a side by its leading coefficient moves the coefficient out of the product, and products
are added up only if their sides are equal.
-/

namespace Quadratize

/-- Dividing by the leading coefficient and multiplying by it again changes nothing. -/
theorem Affine.eval_monic (r : Wire → Scalar) (a : Affine Wire) :
    Affine.eval r (Affine.monic a).1 * (Affine.monic a).2 = Affine.eval r a := by
  unfold Affine.monic
  split
  · exact mul_one _
  · rename_i c _
    split
    · rename_i d hd
      rw [Affine.eval_scale, mul_assoc, mul_comm d c, Scalar.mul_of_inverse? hd, mul_one]
    · exact mul_one _

theorem Affine.mem_vars_monic {a : Affine Wire} {w : Wire}
    (h : w ∈ Affine.vars (Affine.monic a).1) : w ∈ Affine.vars a := by
  unfold Affine.monic at h
  split at h
  · exact h
  · split at h
    · exact Affine.mem_vars_scale h
    · exact h

namespace Product

/-- A product with a constant side has the value of the affine sum that it stands for. -/
theorem eval_of_asAffine? {p : Product} {a : Affine Wire} (h : p.asAffine? = some a)
    (r : Wire → Scalar) : p.eval r = Affine.eval r a := by
  unfold asAffine? at h
  split at h
  · rename_i c hc
    obtain rfl := Option.some.inj h
    rw [eval, Affine.eval_scale, Affine.eval_of_asConstant? hc]
  · split at h
    · rename_i c hc
      obtain rfl := Option.some.inj h
      rw [eval, Affine.eval_scale, Affine.eval_of_asConstant? hc, mul_comm]
    · cases h

theorem mem_vars_of_asAffine? {p : Product} {a : Affine Wire} (h : p.asAffine? = some a) {w : Wire}
    (hw : w ∈ Affine.vars a) : w ∈ p.wires := by
  unfold asAffine? at h
  split at h
  · obtain rfl := Option.some.inj h
    exact mem_wires.mpr (.inl (Affine.mem_vars_scale hw))
  · split at h
    · obtain rfl := Option.some.inj h
      exact mem_wires.mpr (.inr (Affine.mem_vars_scale hw))
    · cases h

end Product

/-- Term lists that compare as equal are equal. -/
theorem Sparse.eq_of_compareTerms {κ : Type} [Key κ] {s t : List (κ × Scalar)}
    (h : compareTerms s t = .eq) : s = t := by
  induction s generalizing t with
  | nil =>
    cases t with
    | nil => rfl
    | cons u t => cases h
  | cons u s ih =>
    obtain ⟨j, c⟩ := u
    cases t with
    | nil => cases h
    | cons v t =>
      obtain ⟨k, d⟩ := v
      simp only [compareTerms, Ordering.then_eq_eq, Nat.compare_eq_eq] at h
      obtain ⟨⟨hkey, hcoeff⟩, hrest⟩ := h
      rw [Key.rank_inj hkey, Scalar.ext hcoeff, ih hrest]

namespace MonicProduct

/-- The value of the product with its coefficient. -/
def eval (r : Wire → Scalar) (p : MonicProduct) : Scalar :=
  Affine.eval r p.lhs * Affine.eval r p.rhs * p.coeff

/-- The wires of both sides. -/
def wires (p : MonicProduct) : List Wire :=
  Affine.vars p.lhs ++ Affine.vars p.rhs

/-- The monic sides stand in one of the two orders. -/
theorem ofProduct_cases (p : Product) :
    ofProduct p = ⟨(Affine.monic p.rhs).1, (Affine.monic p.lhs).1,
        (Affine.monic p.lhs).2 * (Affine.monic p.rhs).2⟩ ∨
      ofProduct p = ⟨(Affine.monic p.lhs).1, (Affine.monic p.rhs).1,
        (Affine.monic p.lhs).2 * (Affine.monic p.rhs).2⟩ :=
  ite_eq_or_eq _ _ _

theorem eval_ofProduct (r : Wire → Scalar) (p : Product) : (ofProduct p).eval r = p.eval r := by
  rw [Product.eval, ← Affine.eval_monic r p.lhs, ← Affine.eval_monic r p.rhs]
  rcases ofProduct_cases p with h | h
  · rw [h, eval]
    ring
  · rw [h, eval]
    ring

theorem mem_wires_ofProduct {p : Product} {w : Wire} (h : w ∈ (ofProduct p).wires) :
    w ∈ p.wires := by
  have hsides : w ∈ Affine.vars (Affine.monic p.lhs).1 ∨
      w ∈ Affine.vars (Affine.monic p.rhs).1 := by
    rcases ofProduct_cases p with he | he
    · rw [he] at h
      exact (List.mem_append.mp h).symm
    · rw [he] at h
      exact List.mem_append.mp h
  exact Product.mem_wires.mpr (hsides.imp Affine.mem_vars_monic Affine.mem_vars_monic)

/-- Products that compare as equal have equal sides. -/
theorem eq_of_compare {p q : MonicProduct} (h : p.compare q = .eq) :
    p.lhs = q.lhs ∧ p.rhs = q.rhs := by
  obtain ⟨hl, hr⟩ := Ordering.then_eq_eq.mp h
  exact ⟨Sparse.ext (Sparse.eq_of_compareTerms hl), Sparse.ext (Sparse.eq_of_compareTerms hr)⟩

theorem sum_insert (r : Wire → Scalar) (p : MonicProduct) (l : List MonicProduct) :
    ((p.insert l).map (eval r)).sum = (l.map (eval r)).sum + p.eval r := by
  induction l with
  | nil => simp [insert]
  | cons q rest ih =>
    unfold insert
    split
    · simp only [List.map_cons, List.sum_cons]
      ring
    · rename_i heq
      obtain ⟨hl, hr⟩ := eq_of_compare heq
      simp only [List.map_cons, List.sum_cons, eval, hl, hr]
      ring
    · simp only [List.map_cons, List.sum_cons, ih]
      ring

/-- What holds of the list and of the product, whatever the coefficients, holds after insertion. -/
theorem forall_mem_insert {P : MonicProduct → Prop}
    (hcoeff : ∀ m c, P m → P { m with coeff := c }) {p : MonicProduct} {l : List MonicProduct}
    (hp : P p) (hl : ∀ m ∈ l, P m) : ∀ m ∈ p.insert l, P m := by
  induction l with
  | nil => exact List.forall_mem_singleton.mpr hp
  | cons m l ih =>
    obtain ⟨hm, hrest⟩ := List.forall_mem_cons.mp hl
    unfold insert
    split
    · exact List.forall_mem_cons.mpr ⟨hp, hl⟩
    · exact List.forall_mem_cons.mpr ⟨hcoeff m _ hm, hrest⟩
    · exact List.forall_mem_cons.mpr ⟨hm, ih hrest⟩

/-- Inserts one product after the other. -/
def collect (l ms : List MonicProduct) : List MonicProduct :=
  ms.foldl (fun l m ↦ m.insert l) l

theorem sum_collect (r : Wire → Scalar) (l ms : List MonicProduct) :
    ((collect l ms).map (eval r)).sum = (l.map (eval r)).sum + (ms.map (eval r)).sum := by
  induction ms generalizing l with
  | nil => exact (add_zero _).symm
  | cons m ms ih =>
    rw [List.map_cons, List.sum_cons, ← add_assoc, ← sum_insert]
    exact ih _

theorem forall_mem_collect {P : MonicProduct → Prop}
    (hcoeff : ∀ m c, P m → P { m with coeff := c }) {l ms : List MonicProduct}
    (hms : ∀ m ∈ ms, P m) (hl : ∀ m ∈ l, P m) : ∀ m ∈ collect l ms, P m := by
  induction ms generalizing l with
  | nil => exact hl
  | cons p ms ih =>
    obtain ⟨hp, hrest⟩ := List.forall_mem_cons.mp hms
    exact ih hrest (forall_mem_insert hcoeff hp hl)

@[simp] theorem eval_toProduct (r : Wire → Scalar) (p : MonicProduct) :
    p.toProduct.eval r = p.eval r := by
  rw [toProduct, Product.eval, Affine.eval_scale, eval]
  ring

theorem mem_wires_toProduct {p : MonicProduct} {w : Wire} (h : w ∈ p.toProduct.wires) :
    w ∈ p.wires :=
  List.mem_append.mpr ((Product.mem_wires.mp h).imp_left Affine.mem_vars_scale)

end MonicProduct

namespace QuadForm

theorem eval_foldl_add (r : Wire → Scalar) (l : List (Affine Wire)) (a : Affine Wire) :
    Affine.eval r (l.foldl (· + ·) a) = Affine.eval r a + (l.map (Affine.eval r)).sum := by
  induction l generalizing a with
  | nil => simp
  | cons b l ih =>
    rw [List.foldl_cons, ih, Affine.eval_add, List.map_cons, List.sum_cons, add_assoc]

theorem mem_vars_foldl_add {l : List (Affine Wire)} {a : Affine Wire} {w : Wire}
    (h : w ∈ Affine.vars (l.foldl (· + ·) a)) : w ∈ Affine.vars a ∨ ∃ b ∈ l, w ∈ Affine.vars b := by
  induction l generalizing a with
  | nil => exact .inl h
  | cons b l ih =>
    rcases ih h with h | ⟨c, hc, hw⟩
    · rcases Affine.mem_vars_add h with h | h
      · exact .inl h
      · exact .inr ⟨b, List.mem_cons_self, h⟩
    · exact .inr ⟨c, List.mem_cons_of_mem _ hc, hw⟩

theorem monicPart_eq (f : QuadForm) : f.monicPart =
    MonicProduct.collect [] ((f.terms.filter (·.asAffine?.isNone)).map MonicProduct.ofProduct) := by
  rw [MonicProduct.collect, List.foldl_map]
  rfl

/-- What holds of the monic multiples of products, whatever the coefficients, holds of the monic
products of a form. -/
theorem forall_mem_monicPart {P : MonicProduct → Prop} {f : QuadForm}
    (hcoeff : ∀ m c, P m → P { m with coeff := c })
    (h : ∀ p ∈ f.terms, p.asAffine? = none → P (MonicProduct.ofProduct p)) :
    ∀ m ∈ f.monicPart, P m := by
  rw [monicPart_eq]
  refine MonicProduct.forall_mem_collect hcoeff (List.forall_mem_map.mpr fun p hp ↦ ?_) nofun
  obtain ⟨hmem, hnone⟩ := List.mem_filter.mp hp
  exact h p hmem (by simpa using hnone)

/-- The products with a constant side and the others make up the form. -/
theorem sum_asAffine? (r : Wire → Scalar) (ps : List Product) :
    ((ps.filterMap Product.asAffine?).map (Affine.eval r)).sum +
        ((ps.filter (·.asAffine?.isNone)).map (Product.eval r)).sum =
      (ps.map (Product.eval r)).sum := by
  induction ps with
  | nil => simp
  | cons p ps ih =>
    cases hp : p.asAffine? with
    | none =>
      rw [List.filterMap_cons_none hp, List.filter_cons_of_pos (by simp [hp]), List.map_cons,
        List.map_cons, List.sum_cons, List.sum_cons, ← ih]
      ring
    | some a =>
      rw [List.filterMap_cons_some hp, List.filter_cons_of_neg (by simp [hp]), List.map_cons,
        List.map_cons, List.sum_cons, List.sum_cons, ← ih, Product.eval_of_asAffine? hp]
      ring

/-- The linear part has the value of the products with a constant side. -/
theorem eval_linearPart (r : Wire → Scalar) (f : QuadForm) : Affine.eval r f.linearPart =
    ((f.terms.filterMap Product.asAffine?).map (Affine.eval r)).sum := by
  rw [linearPart, eval_foldl_add]
  exact zero_add _

@[simp] theorem eval_simplify (r : Wire → Scalar) (f : QuadForm) :
    f.simplify.eval r = f.eval r := by
  have htoProduct : Product.eval r ∘ MonicProduct.toProduct = MonicProduct.eval r :=
    funext (MonicProduct.eval_toProduct r)
  have hofProduct : MonicProduct.eval r ∘ MonicProduct.ofProduct = Product.eval r :=
    funext (MonicProduct.eval_ofProduct r)
  have hmonic : (f.monicPart.map (Product.eval r ∘ MonicProduct.toProduct)).sum =
      ((f.terms.filter (·.asAffine?.isNone)).map (Product.eval r)).sum := by
    rw [htoProduct, monicPart_eq, MonicProduct.sum_collect, List.map_map, hofProduct]
    exact zero_add _
  rw [simplify, eval_ofProducts, List.map_append, List.sum_append, List.map_map, hmonic,
    List.map_singleton, List.sum_singleton, Product.eval, Affine.eval_constant, mul_one,
    eval_linearPart, add_comm]
  exact sum_asAffine? r f.terms

/-- Simplification brings in no wires. -/
theorem mem_wires_simplify {f : QuadForm} {w : Wire} (h : w ∈ f.simplify.wires) : w ∈ f.wires := by
  obtain ⟨p, hp, hw⟩ := mem_wires_ofProducts h
  rcases List.mem_append.mp hp with hp | hp
  · obtain ⟨m, hm, rfl⟩ := List.mem_map.mp hp
    refine forall_mem_monicPart (P := fun m ↦ ∀ w ∈ m.wires, w ∈ f.wires) (fun _ _ h ↦ h)
      (fun p hp _ w hw ↦ ?_) m hm w (MonicProduct.mem_wires_toProduct hw)
    exact mem_wires.mpr ⟨p, hp, MonicProduct.mem_wires_ofProduct hw⟩
  · obtain rfl := List.mem_singleton.mp hp
    have hvars : w ∈ Affine.vars f.linearPart := (Product.mem_wires.mp hw).resolve_right (by simp)
    rcases mem_vars_foldl_add hvars with h | ⟨a, ha, hw⟩
    · cases h
    · obtain ⟨q, hq, he⟩ := List.mem_filterMap.mp ha
      exact mem_wires.mpr ⟨q, hq, Product.mem_vars_of_asAffine? he hw⟩

end QuadForm

end Quadratize
