import Quadratize.Form.Basic
import Quadratize.Proofs.Sparse.Eval

/-!
# Values and wires of quadratic forms

Products with a zero side have the value zero, so dropping them keeps the value of a form.  Every
operation on forms has its meaning on values and brings in no new wires.
-/

namespace Quadratize

namespace Product

/-- A product with a zero side has the value zero. -/
theorem eval_of_isZero {p : Product} (h : p.isZero = true) (r : Wire → Scalar) : p.eval r = 0 := by
  rcases (Bool.or_eq_true _ _).mp h with h | h
  · rw [eval, Affine.eval, Sparse.eval_of_isZero h, zero_mul]
  · rw [eval, Affine.eval, Affine.eval, Sparse.eval_of_isZero h, mul_zero]

theorem mem_wires {p : Product} {w : Wire} :
    w ∈ p.wires ↔ w ∈ Affine.vars p.lhs ∨ w ∈ Affine.vars p.rhs :=
  List.mem_append

theorem eval_rename (r : Wire → Scalar) (f : Wire → Wire) (p : Product) :
    (p.rename f).eval r = p.eval (r ∘ f) := by
  simp only [eval, rename, Affine.eval_rename]

theorem mem_wires_rename {p : Product} {f : Wire → Wire} {w : Wire} (h : w ∈ (p.rename f).wires) :
    ∃ v ∈ p.wires, f v = w := by
  rcases mem_wires.mp h with h | h
  · obtain ⟨v, hv, he⟩ := Affine.mem_vars_rename h
    exact ⟨v, mem_wires.mpr (.inl hv), he⟩
  · obtain ⟨v, hv, he⟩ := Affine.mem_vars_rename h
    exact ⟨v, mem_wires.mpr (.inr hv), he⟩

theorem rename_rename (f g : Wire → Wire) (p : Product) :
    (p.rename f).rename g = p.rename (g ∘ f) := by
  simp only [rename, Affine.rename_rename]

theorem rename_congr {f g : Wire → Wire} {p : Product} (h : ∀ w ∈ p.wires, f w = g w) :
    p.rename f = p.rename g := by
  rw [rename, rename, Affine.rename_congr fun w hw ↦ h w (mem_wires.mpr (.inl hw)),
    Affine.rename_congr fun w hw ↦ h w (mem_wires.mpr (.inr hw))]

theorem isZero_rename {p : Product} (h : p.isZero = true) (f : Wire → Wire) :
    (p.rename f).isZero = true := by
  refine (Bool.or_eq_true _ _).mpr ?_
  exact ((Bool.or_eq_true _ _).mp h).imp Sparse.isZero_map Sparse.isZero_map

theorem eval_erase {r : Wire → Scalar} {w : Wire} (hw : r w = 0) (p : Product) :
    (p.erase w).eval r = p.eval r := by
  simp only [eval, erase, Affine.eval_erase hw]

theorem mem_wires_erase {p : Product} {w v : Wire} :
    v ∈ (p.erase w).wires ↔ v ∈ p.wires ∧ v ≠ w := by
  simp only [mem_wires, erase, Affine.mem_vars_erase]
  exact or_and_right.symm

theorem eval_congr {r q : Wire → Scalar} {p : Product} (h : ∀ w ∈ p.wires, r w = q w) :
    p.eval r = p.eval q := by
  rw [eval, eval, Affine.eval_congr fun w hw ↦ h w (mem_wires.mpr (.inl hw)),
    Affine.eval_congr fun w hw ↦ h w (mem_wires.mpr (.inr hw))]

theorem tryEval_eq_ok {ε : Type} {r : Wire → Except ε Scalar} {q : Wire → Scalar} {p : Product}
    (h : ∀ w ∈ p.wires, r w = .ok (q w)) : p.tryEval r = .ok (p.eval q) := by
  rw [tryEval, Affine.tryEval_eq_ok fun w hw ↦ h w (mem_wires.mpr (.inl hw)),
    Affine.tryEval_eq_ok fun w hw ↦ h w (mem_wires.mpr (.inr hw))]
  rfl

end Product

namespace QuadForm

@[simp] theorem mem_wires {f : QuadForm} {w : Wire} : w ∈ f.wires ↔ ∃ p ∈ f.terms, w ∈ p.wires := by
  rw [wires, Wire.mem_ascending, List.mem_flatMap]

/-! ## Forms from products -/

@[simp] theorem eval_ofProducts (r : Wire → Scalar) (ps : List Product) :
    (ofProducts ps).eval r = (ps.map (Product.eval r)).sum := by
  change ((ps.filter (!·.isZero)).map (Product.eval r)).sum = _
  induction ps with
  | nil => rfl
  | cons p ps ih =>
    cases hp : p.isZero with
    | true =>
      rw [List.filter_cons_of_neg (by simp [hp]), ih, List.map_cons, List.sum_cons,
        Product.eval_of_isZero hp, zero_add]
    | false =>
      rw [List.filter_cons_of_pos (by simp [hp]), List.map_cons, List.sum_cons, ih,
        List.map_cons, List.sum_cons]

theorem mem_wires_ofProducts {ps : List Product} {w : Wire} (h : w ∈ (ofProducts ps).wires) :
    ∃ p ∈ ps, w ∈ p.wires := by
  obtain ⟨p, hp, hw⟩ := mem_wires.mp h
  exact ⟨p, List.mem_of_mem_filter hp, hw⟩

@[simp] theorem eval_product (r : Wire → Scalar) (lhs rhs : Affine Wire) :
    (product lhs rhs).eval r = Affine.eval r lhs * Affine.eval r rhs := by
  simp [product, Product.eval]

theorem mem_wires_product {lhs rhs : Affine Wire} {w : Wire} (h : w ∈ (product lhs rhs).wires) :
    w ∈ Affine.vars lhs ∨ w ∈ Affine.vars rhs := by
  obtain ⟨p, hp, hw⟩ := mem_wires_ofProducts h
  obtain rfl := List.mem_singleton.mp hp
  exact Product.mem_wires.mp hw

@[simp] theorem eval_linear (r : Wire → Scalar) (a : Affine Wire) :
    (linear a).eval r = Affine.eval r a := by
  simp [linear]

theorem mem_wires_linear {a : Affine Wire} {w : Wire} (h : w ∈ (linear a).wires) :
    w ∈ Affine.vars a :=
  (mem_wires_product h).resolve_right (by simp)

/-- The form of the exclusive or, on all values and not only on bits. -/
@[simp] theorem eval_xor (r : Wire → Scalar) (x y : Wire) :
    (xor x y).eval r = r x + r y - 2 * r x * r y := by
  simp only [xor, complement, eval_ofProducts, Product.eval, List.map_cons, List.map_nil,
    List.sum_cons, List.sum_nil, Affine.eval_sub, Affine.eval_constant, Affine.eval_var]
  ring

theorem mem_vars_complement {x w : Wire} (h : w ∈ Affine.vars (complement x)) : w = x := by
  rcases Affine.mem_vars_sub h with h | h
  · simp at h
  · exact Affine.mem_vars_monomial h

theorem mem_wires_xor {x y w : Wire} (h : w ∈ (xor x y).wires) : w = x ∨ w = y := by
  obtain ⟨p, hp, hw⟩ := mem_wires_ofProducts h
  rcases List.mem_pair.mp hp with rfl | rfl
  · exact (Product.mem_wires.mp hw).imp mem_vars_complement Affine.mem_vars_monomial
  · exact (Product.mem_wires.mp hw).symm.imp Affine.mem_vars_monomial mem_vars_complement

/-! ## Renaming and substitution -/

theorem eval_rename (r : Wire → Scalar) (g : Wire → Wire) (f : QuadForm) :
    (f.rename g).eval r = f.eval (r ∘ g) := by
  rw [rename, eval_ofProducts, List.map_map, eval]
  congr 2
  funext p
  exact Product.eval_rename r g p

theorem mem_wires_rename {g : Wire → Wire} {f : QuadForm} {w : Wire} (h : w ∈ (f.rename g).wires) :
    ∃ v ∈ f.wires, g v = w := by
  obtain ⟨q, hq, hw⟩ := mem_wires_ofProducts h
  obtain ⟨p, hp, rfl⟩ := List.mem_map.mp hq
  obtain ⟨v, hv, he⟩ := Product.mem_wires_rename hw
  exact ⟨v, mem_wires.mpr ⟨p, hp, hv⟩, he⟩

/-- A product that is left out because it has a zero side has one after renaming too. -/
theorem rename_ofProducts (g : Wire → Wire) (ps : List Product) :
    (ofProducts ps).rename g = ofProducts (ps.map (Product.rename g)) := by
  refine ext ?_
  change List.filter _ (List.map _ (List.filter _ ps)) = List.filter _ (List.map _ ps)
  induction ps with
  | nil => rfl
  | cons p ps ih =>
    rw [List.map_cons, List.filter_cons, List.filter_cons]
    cases hp : p.isZero with
    | true =>
      rw [if_neg (by simp), Product.isZero_rename hp g, if_neg (by simp)]
      exact ih
    | false =>
      rw [if_pos (by rfl), List.map_cons, List.filter_cons, ih]

theorem rename_rename (g h : Wire → Wire) (f : QuadForm) :
    (f.rename g).rename h = f.rename (h ∘ g) := by
  change (ofProducts (f.terms.map (Product.rename g))).rename h = _
  rw [rename_ofProducts, List.map_map]
  exact congrArg ofProducts (List.map_congr_left fun p _ ↦ Product.rename_rename g h p)

theorem rename_congr {g h : Wire → Wire} {f : QuadForm} (hgh : ∀ w ∈ f.wires, g w = h w) :
    f.rename g = f.rename h := by
  refine congrArg ofProducts (List.map_congr_left fun p hp ↦ ?_)
  exact Product.rename_congr fun w hw ↦ hgh w (mem_wires.mpr ⟨p, hp, hw⟩)

theorem eval_substituteZero {r : Wire → Scalar} {w : Wire} (hw : r w = 0) (f : QuadForm) :
    (f.substituteZero w).eval r = f.eval r := by
  rw [substituteZero, eval_ofProducts, List.map_map, eval]
  congr 2
  funext p
  exact Product.eval_erase hw p

theorem mem_wires_substituteZero {f : QuadForm} {w v : Wire} (h : v ∈ (f.substituteZero w).wires) :
    v ∈ f.wires ∧ v ≠ w := by
  obtain ⟨q, hq, hv⟩ := mem_wires_ofProducts h
  obtain ⟨p, hp, rfl⟩ := List.mem_map.mp hq
  obtain ⟨hmem, hne⟩ := Product.mem_wires_erase.mp hv
  exact ⟨mem_wires.mpr ⟨p, hp, hmem⟩, hne⟩

/-! ## Dependence on wires -/

/-- The value depends only on the values of the wires of the form. -/
theorem eval_congr {r q : Wire → Scalar} {f : QuadForm} (h : ∀ w ∈ f.wires, r w = q w) :
    f.eval r = f.eval q := by
  unfold eval
  congr 1
  exact List.map_congr_left fun p hp ↦
    Product.eval_congr fun w hw ↦ h w (mem_wires.mpr ⟨p, hp, hw⟩)

theorem tryEvalTerms_eq_ok {ε : Type} {r : Wire → Except ε Scalar} {q : Wire → Scalar}
    {ps : List Product} (h : ∀ p ∈ ps, ∀ w ∈ p.wires, r w = .ok (q w)) :
    tryEvalTerms r ps = .ok (ps.map (Product.eval q)).sum := by
  induction ps with
  | nil => rfl
  | cons p ps ih =>
    rw [tryEvalTerms, Product.tryEval_eq_ok (h p List.mem_cons_self),
      ih fun t ht ↦ h t (List.mem_cons_of_mem _ ht)]
    rfl

/-- A partial evaluation that finds every wire of the form gives the value. -/
theorem tryEval_eq_ok {ε : Type} {r : Wire → Except ε Scalar} {q : Wire → Scalar} {f : QuadForm}
    (h : ∀ w ∈ f.wires, r w = .ok (q w)) : f.tryEval r = .ok (f.eval q) :=
  tryEvalTerms_eq_ok fun p hp w hw ↦ h w (mem_wires.mpr ⟨p, hp, hw⟩)

end QuadForm

end Quadratize
