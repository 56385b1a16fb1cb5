import Quadratize.Formula.Read
import Quadratize.Proofs.Except
import Quadratize.Proofs.Form.Simplify

/-!
# The standard shape of forms

A form stands for a polynomial: a product with a constant side belongs to its linear part, the
other products have variables on both sides.  The form of a polynomial lists the products first and
the linear part last.  A form in this shape is the form of its own polynomial.  Reading and
simplification give such forms, and so do the ways in which gates come to compute forms.
-/

namespace Quadratize

open Formula

/-! ## Constant sides -/

namespace Affine

variable {κ ι : Type} [Key κ] [Key ι] {a : Affine κ} {c : Scalar}

theorem asConstant?_eq_none : asConstant? a = none ↔ vars a ≠ [] := by
  simp [asConstant?]

@[simp] theorem asConstant?_constant (c : Scalar) :
    asConstant? (constant c : Affine κ) = some c := by
  obtain ⟨d, hd⟩ : ∃ d, asConstant? (constant c : Affine κ) = some d := by
    rw [asConstant?, vars_constant]
    exact ⟨_, rfl⟩
  have heval := eval_of_asConstant? hd fun _ ↦ 0
  rw [eval_constant] at heval
  rw [hd, heval]

theorem vars_var_ne_nil (k : κ) : vars (var k) ≠ [] := nofun

theorem exists_eq_constant (h : vars a = []) : ∃ c, a = constant c := by
  rcases terms_of_vars_eq_nil h with hterms | ⟨c, hterms⟩
  · exact ⟨0, Sparse.ext hterms⟩
  · have hc : c ≠ 0 := a.nonzero (none, c) (by simp [hterms])
    refine ⟨c, Sparse.ext ?_⟩
    rw [hterms, constant, Sparse.single, Sparse.addTerm, dif_neg hc]
    rfl

/-- A sum without a constant term is zero or has variables. -/
theorem vars_ne_nil (hconstant : none ∉ a.keys) (hzero : a.isZero = false) : vars a ≠ [] := by
  intro hnil
  rcases terms_of_vars_eq_nil hnil with hterms | ⟨c, hterms⟩
  · rw [Sparse.isZero, hterms] at hzero
    cases hzero
  · exact hconstant (Sparse.mem_keys.mpr ⟨_, by rw [hterms]; exact List.mem_cons_self, rfl⟩)

theorem asConstant?_eq_some : asConstant? a = some c ↔ a = constant c := by
  constructor
  · intro h
    have hvars : vars a = [] := by
      by_contra hne
      rw [asConstant?_eq_none.mpr hne] at h
      cases h
    obtain ⟨d, rfl⟩ := exists_eq_constant hvars
    rw [asConstant?_constant] at h
    rw [Option.some.inj h]
  · rintro rfl
    exact asConstant?_constant c

theorem scale_one (a : Affine κ) : a.scale 1 = a :=
  Sparse.ext_of_eval fun r ↦ by rw [Sparse.eval_scale, mul_one]

theorem vars_scale (hc : c ≠ 0) (a : Affine κ) : vars (a.scale c) = vars a := by
  rw [vars, Sparse.terms_scale hc, List.filterMap_map]
  rfl

theorem isZero_neg (a : Affine κ) : (-a).isZero = a.isZero :=
  List.isEmpty_map

theorem isZero_scale (h : a.isZero = true) (c : Scalar) : (a.scale c).isZero = true := by
  obtain rfl : a = 0 := Sparse.ext (List.isEmpty_iff.mp h)
  rw [Sparse.zero_scale]
  rfl

@[simp] theorem isZero_scale_zero (a : Affine κ) : (a.scale 0).isZero = true := by
  rw [Sparse.scale_zero]
  rfl

theorem vars_neg (a : Affine κ) : vars (-a) = vars a := by
  change (a.terms.map fun t ↦ (t.1, -t.2)).filterMap (·.1) = _
  rw [List.filterMap_map]
  rfl

theorem rename_id (a : Affine κ) : rename id a = a := by
  refine Sparse.ext_of_eval fun r ↦ ?_
  rw [rename, Sparse.eval_map, Option.map_id, Function.comp_id]

/-- A renaming that tells all variables apart does not make a sum constant. -/
theorem vars_rename_ne_nil {f : κ → ι} (hf : Function.Injective f) (h : vars a ≠ []) :
    vars (rename f a) ≠ [] := by
  intro hnil
  obtain ⟨k, hk⟩ := List.exists_mem_of_ne_nil _ h
  have : Nonempty κ := ⟨k⟩
  have hback : rename (Function.invFun f) (rename f a) = a := by
    rw [rename_rename, Function.invFun_comp hf, rename_id]
  rw [← hback] at hk
  obtain ⟨j, hj, -⟩ := mem_vars_rename hk
  rw [hnil] at hj
  cases hj

end Affine

namespace Product

variable {p : Product} {a : Affine Wire}

/-- A product that belongs to no linear part has variables on both sides. -/
theorem asAffine?_eq_none :
    p.asAffine? = none ↔ Affine.vars p.lhs ≠ [] ∧ Affine.vars p.rhs ≠ [] := by
  rw [← Affine.asConstant?_eq_none, ← Affine.asConstant?_eq_none, asAffine?]
  constructor
  · intro h
    split at h
    · cases h
    · rename_i hr
      split at h
      · cases h
      · rename_i hl
        exact ⟨hl, hr⟩
  · rintro ⟨hl, hr⟩
    rw [hl, hr]

theorem asAffine?_constant (a : Affine Wire) (c : Scalar) :
    asAffine? ⟨a, Affine.constant c⟩ = some (a.scale c) := by
  rw [asAffine?, Affine.asConstant?_constant]

theorem asAffine?_constant_left {a : Affine Wire} (h : Affine.vars a ≠ []) (c : Scalar) :
    asAffine? ⟨Affine.constant c, a⟩ = some (a.scale c) := by
  rw [asAffine?, Affine.asConstant?_eq_none.mpr h, Affine.asConstant?_constant]

/-- The polynomial that a product stands for. -/
def toPoly (p : Product) : Poly :=
  match p.asAffine? with
  | some a => .ofAffine a
  | none => ⟨[p], 0⟩

/-- The polynomial of a product is the product of the polynomials of its sides. -/
theorem mul?_ofAffine (a b : Affine Wire) :
    (Poly.ofAffine a).mul? (Poly.ofAffine b) = some (toPoly ⟨a, b⟩) := by
  have hconst (a : Affine Wire) : (Poly.ofAffine a).asConstant? = Affine.asConstant? a := rfl
  rw [Poly.mul?, hconst, hconst, toPoly, asAffine?]
  cases Affine.asConstant? b with
  | some c => rfl
  | none =>
    cases Affine.asConstant? a with
    | some c => rfl
    | none => rfl

end Product

/-! ## The shape -/

namespace QuadForm

/-- The polynomial that a form stands for. -/
def toPoly (f : QuadForm) : Poly :=
  ⟨f.terms.filter (·.asAffine?.isNone), f.linearPart⟩

theorem asAffine?_of_mem_products {f : QuadForm} {p : Product} (h : p ∈ f.toPoly.products) :
    p.asAffine? = none := by
  simpa using (List.mem_filter.mp h).2

/-- The form lists products with variables on both sides, then at most one linear term. -/
def Standard (f : QuadForm) : Prop :=
  f.toPoly.toForm = f

end QuadForm

namespace Formula.Poly

/-- Every product of the polynomial that is not zero has variables on both sides. -/
def Genuine (p : Poly) : Prop :=
  ∀ t ∈ p.products, t.isZero = false → t.asAffine? = none

variable {p q : Poly}

/-- The linear part as the last product of a form. -/
def last (p : Poly) : List Product :=
  [⟨p.linear, Affine.constant 1⟩].filter (!·.isZero)

theorem terms_toForm (p : Poly) : p.toForm.terms = p.products.filter (!·.isZero) ++ p.last :=
  List.filter_append ..

theorem asAffine?_of_mem_last {t : Product} (h : t ∈ p.last) : t.asAffine? = some p.linear := by
  obtain rfl := List.mem_singleton.mp (List.mem_of_mem_filter h)
  rw [Product.asAffine?_constant, Affine.scale_one]

theorem foldl_last (p : Poly) :
    (p.last.filterMap Product.asAffine?).foldl (· + ·) 0 = p.linear := by
  have hunit : (Affine.constant 1 : Affine Wire).isZero = false := rfl
  cases hzero : p.linear.isZero with
  | true =>
    have hlast : p.last = [] := by
      rw [last, List.filter_singleton, Product.isZero, hzero]
      rfl
    rw [hlast]
    exact (Sparse.ext (List.isEmpty_iff.mp hzero)).symm
  | false =>
    have hlast : p.last = [⟨p.linear, Affine.constant 1⟩] := by
      rw [last, List.filter_singleton, Product.isZero, hzero, hunit]
      rfl
    have haff :=
      asAffine?_of_mem_last (p := p) (t := ⟨p.linear, Affine.constant 1⟩) (by simp [hlast])
    rw [hlast, List.filterMap_cons_some haff, List.filterMap_nil]
    refine Sparse.ext_of_eval fun r ↦ ?_
    rw [List.foldl_cons, List.foldl_nil, Sparse.eval_add, Sparse.eval_zero, zero_add]

/-- The form of a polynomial without constant sides stands for the polynomial, less its products
with a zero side. -/
theorem toPoly_toForm (h : p.Genuine) :
    p.toForm.toPoly = ⟨p.products.filter (!·.isZero), p.linear⟩ := by
  have hproducts : ∀ t ∈ p.products.filter (!·.isZero), t.asAffine? = none := by
    intro t ht
    obtain ⟨hmem, hzero⟩ := List.mem_filter.mp ht
    exact h t hmem (by simpa using hzero)
  have hfront := List.filter_eq_self.mpr fun t ht ↦ Option.isNone_iff_eq_none.mpr (hproducts t ht)
  have hback : p.last.filter (·.asAffine?.isNone) = [] := by
    refine List.filter_eq_nil_iff.mpr fun t ht ↦ ?_
    simp [asAffine?_of_mem_last ht]
  have hgenuine : p.toForm.terms.filter (·.asAffine?.isNone) = p.products.filter (!·.isZero) := by
    rw [terms_toForm, List.filter_append, hfront, hback, List.append_nil]
  have hlinear : p.toForm.linearPart = p.linear := by
    rw [QuadForm.linearPart, terms_toForm, List.filterMap_append,
      List.filterMap_eq_nil_iff.mpr hproducts, List.nil_append, foldl_last]
  rw [QuadForm.toPoly, hgenuine, hlinear]

/-- The form of a polynomial without constant sides is in standard shape. -/
theorem standard_toForm (h : p.Genuine) : p.toForm.Standard := by
  refine QuadForm.ext ?_
  rw [toPoly_toForm h, terms_toForm, terms_toForm, List.filter_filter]
  simp only [Bool.and_self]
  rfl

theorem genuine_ofAffine (a : Affine Wire) : (ofAffine a).Genuine := nofun

theorem Genuine.add (hp : p.Genuine) (hq : q.Genuine) : (p.add q).Genuine :=
  fun t ht ↦ (List.mem_append.mp ht).elim (hp t) (hq t)

theorem Genuine.neg (hp : p.Genuine) : p.neg.Genuine := by
  intro t ht hzero
  obtain ⟨u, hu, rfl⟩ := List.mem_map.mp ht
  rw [Product.isZero, Affine.isZero_neg] at hzero
  rw [Product.asAffine?_eq_none, Affine.vars_neg]
  exact Product.asAffine?_eq_none.mp (hp u hu hzero)

theorem Genuine.scale (hp : p.Genuine) (c : Scalar) : (p.scale c).Genuine := by
  intro t ht hzero
  obtain ⟨u, hu, rfl⟩ := List.mem_map.mp ht
  obtain ⟨hl, hr⟩ := Bool.or_eq_false_iff.mp hzero
  -- Only a scale by zero could make a side constant, and it makes the product zero.
  have hc : c ≠ 0 := by
    rintro rfl
    rw [Affine.isZero_scale_zero] at hl
    cases hl
  have hul : u.lhs.isZero = false := by
    by_contra h
    rw [Affine.isZero_scale (by simpa using h)] at hl
    cases hl
  rw [Product.asAffine?_eq_none, Affine.vars_scale hc]
  exact Product.asAffine?_eq_none.mp (hp u hu (Bool.or_eq_false_iff.mpr ⟨hul, hr⟩))

theorem genuine_product {a b : Affine Wire} (ha : Affine.asConstant? a = none)
    (hb : Affine.asConstant? b = none) : Genuine ⟨[⟨a, b⟩], 0⟩ := by
  intro t ht _
  obtain rfl := List.mem_singleton.mp ht
  exact Product.asAffine?_eq_none.mpr
    ⟨Affine.asConstant?_eq_none.mp ha, Affine.asConstant?_eq_none.mp hb⟩

theorem Genuine.mul? {r : Poly} (hp : p.Genuine) (hq : q.Genuine) (h : p.mul? q = some r) :
    r.Genuine := by
  unfold Poly.mul? at h
  split at h
  · cases h
    exact hp.scale _
  · cases h
    exact hq.scale _
  · rename_i hqc hpc
    split at h
    · rename_i a b ha hb
      cases h
      rw [asConstant?, hb] at hqc
      rw [asConstant?, ha] at hpc
      exact genuine_product hpc hqc
    · cases h

/-- Reading an expression puts no constant on a side of a product. -/
theorem genuine_ofExpr {e : Expr} (h : ofExpr e = .ok p) : p.Genuine := by
  induction e generalizing p with
  | number digits =>
    cases h
    exact genuine_ofAffine _
  | wire digits =>
    unfold ofExpr at h
    split at h
    · cases h
      exact genuine_ofAffine _
    · cases h
  | neg e ih =>
    obtain ⟨q, hq, h⟩ := bind_eq_ok.mp h
    cases h
    exact (ih hq).neg
  | add a b iha ihb =>
    obtain ⟨q, hq, h⟩ := bind_eq_ok.mp h
    obtain ⟨r, hr, h⟩ := bind_eq_ok.mp h
    cases h
    exact (iha hq).add (ihb hr)
  | sub a b iha ihb =>
    obtain ⟨q, hq, h⟩ := bind_eq_ok.mp h
    obtain ⟨r, hr, h⟩ := bind_eq_ok.mp h
    cases h
    exact (iha hq).add (ihb hr).neg
  | mul a b iha ihb =>
    obtain ⟨q, hq, h⟩ := bind_eq_ok.mp h
    obtain ⟨r, hr, h⟩ := bind_eq_ok.mp h
    split at h
    · rename_i s hs
      cases h
      exact (iha hq).mul? (ihb hr) hs
    · cases h

end Formula.Poly

/-! ## Forms in standard shape -/

namespace QuadForm

open Formula.Poly

/-- A form that has been read is in standard shape. -/
theorem standard_of_read {text : List Char} {f : QuadForm} (h : read text = .ok f) :
    f.Standard := by
  unfold read at h
  split at h
  · cases h
  · split at h
    · cases h
    · rename_i p hp
      cases h
      exact standard_toForm (genuine_ofExpr hp)

theorem standard_ofProducts {ps : List Product}
    (h : ∀ t ∈ ps, t.isZero = false → t.asAffine? = none) : (ofProducts ps).Standard := by
  have hform : ofProducts ps = Poly.toForm ⟨ps, 0⟩ := by
    refine ext ?_
    rw [terms_toForm]
    exact (List.append_nil _).symm
  rw [hform]
  exact standard_toForm h

theorem standard_linear (a : Affine Wire) : (linear a).Standard :=
  standard_toForm (genuine_ofAffine a)

theorem standard_product {a b : Affine Wire} (ha : a.isZero = false → Affine.vars a ≠ [])
    (hb : b.isZero = false → Affine.vars b ≠ []) : (product a b).Standard := by
  refine standard_ofProducts fun t ht hzero ↦ ?_
  obtain rfl := List.mem_singleton.mp ht
  obtain ⟨hl, hr⟩ := Bool.or_eq_false_iff.mp hzero
  exact Product.asAffine?_eq_none.mpr ⟨ha hl, hb hr⟩

theorem standard_xor (x y : Wire) : (xor x y).Standard := by
  refine standard_ofProducts fun t ht _ ↦ ?_
  rcases List.mem_pair.mp ht with rfl | rfl
  · exact Product.asAffine?_eq_none.mpr ⟨nofun, nofun⟩
  · exact Product.asAffine?_eq_none.mpr ⟨nofun, nofun⟩

/-! ### Renaming -/

/-- Renaming the wires apart keeps the shape. -/
theorem Standard.rename {f : QuadForm} (hf : f.Standard) {r : Wire → Wire}
    (hr : Function.Injective r) : (f.rename r).Standard := by
  have hform : f.toPoly.toForm.rename r = Poly.toForm ⟨f.toPoly.products.map (Product.rename r),
      Affine.rename r f.linearPart⟩ := by
    rw [toForm, rename_ofProducts, List.map_append]
    rfl
  rw [show f.toPoly.toForm = f from hf] at hform
  rw [hform]
  refine standard_toForm fun t ht _ ↦ ?_
  obtain ⟨u, hu, rfl⟩ := List.mem_map.mp ht
  obtain ⟨hl, hr'⟩ := Product.asAffine?_eq_none.mp (asAffine?_of_mem_products hu)
  exact Product.asAffine?_eq_none.mpr
    ⟨Affine.vars_rename_ne_nil hr hl, Affine.vars_rename_ne_nil hr hr'⟩

end QuadForm

/-! ### Simplification -/

theorem Affine.vars_monic (a : Affine Wire) : vars (monic a).1 = vars a := by
  unfold monic
  split
  · rfl
  · rename_i c _
    split
    · rename_i d hd
      refine vars_scale ?_ a
      rintro rfl
      have h := Scalar.mul_of_inverse? hd
      rw [mul_zero] at h
      exact zero_ne_one h
    · rfl

namespace MonicProduct

/-- Both sides have variables. -/
def HasVars (p : MonicProduct) : Prop :=
  Affine.vars p.lhs ≠ [] ∧ Affine.vars p.rhs ≠ []

/-- A product that is written without a zero side has not cancelled. -/
theorem coeff_ne_zero {m : MonicProduct} (h : m.toProduct.isZero = false) : m.coeff ≠ 0 := by
  intro hc
  rw [toProduct, Product.isZero, hc, Affine.isZero_scale_zero] at h
  cases h

theorem hasVars_ofProduct {p : Product} (h : p.asAffine? = none) : (ofProduct p).HasVars := by
  obtain ⟨hl, hr⟩ := Product.asAffine?_eq_none.mp h
  rw [← Affine.vars_monic] at hl hr
  rcases ofProduct_cases p with hp | hp
  · rw [hp]
    exact ⟨hr, hl⟩
  · rw [hp]
    exact ⟨hl, hr⟩

end MonicProduct

namespace QuadForm

theorem hasVars_of_mem_monicPart {f : QuadForm} : ∀ m ∈ f.monicPart, m.HasVars :=
  forall_mem_monicPart (fun _ _ h ↦ h) fun _ _ ↦ MonicProduct.hasVars_ofProduct

theorem genuine_simplify (f : QuadForm) :
    Poly.Genuine ⟨f.monicPart.map MonicProduct.toProduct, f.linearPart⟩ := by
  intro t ht hzero
  obtain ⟨m, hm, rfl⟩ := List.mem_map.mp ht
  obtain ⟨hl, hr⟩ := hasVars_of_mem_monicPart m hm
  have hcoeff := MonicProduct.coeff_ne_zero hzero
  exact Product.asAffine?_eq_none.mpr ⟨(Affine.vars_scale hcoeff m.lhs).symm ▸ hl, hr⟩

/-- Simplification brings every form into standard shape. -/
theorem standard_simplify (f : QuadForm) : f.simplify.Standard :=
  Poly.standard_toForm f.genuine_simplify

end QuadForm

end Quadratize
