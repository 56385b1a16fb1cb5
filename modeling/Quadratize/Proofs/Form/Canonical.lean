import Quadratize.Proofs.Form.Monic
import Quadratize.Proofs.Wire

/-!
# Simplified forms

Simplification adds up what it makes of the products: affine sums and monic products.  Its result
lists each pair of monic sides once, with what is linear at the end, and depends only on what the
products are made into, in any order.  So a form that is simplified already stays as it is, and forms
that differ in the arrangement of their products have the same simplified form.
-/

namespace Quadratize

open Formula MonicProduct

/-! ## The shape of simplified forms -/

namespace QuadForm

/-- A form in standard shape is its products followed by its linear term. -/
theorem Standard.terms {f : QuadForm} (hf : f.Standard) :
    f.terms = f.toPoly.products ++ f.toPoly.last := by
  have hkept : f.toPoly.products.filter (!·.isZero) = f.toPoly.products := by
    refine List.filter_eq_self.mpr fun p hp ↦ ?_
    simpa using f.nonzero p (List.mem_of_mem_filter hp)
  conv_lhs => rw [← show f.toPoly.toForm = f from hf]
  rw [Poly.terms_toForm, hkept]

/-- The monic products of the form that do not cancel. -/
def uncancelled (f : QuadForm) : List MonicProduct :=
  f.monicPart.filter (!·.toProduct.isZero)

theorem ascending_uncancelled (f : QuadForm) : Ascending f.uncancelled :=
  f.ascending_monicPart.filter _

theorem normal_of_mem_uncancelled {f : QuadForm} {m : MonicProduct} (h : m ∈ f.uncancelled) :
    m.Normal ∧ m.coeff ≠ 0 := by
  obtain ⟨hm, hzero⟩ := List.mem_filter.mp h
  refine ⟨?_, coeff_ne_zero (by simpa using hzero)⟩
  exact forall_mem_monicPart (fun _ _ h ↦ ⟨h.1, h.2, h.3⟩) (fun _ _ ↦ normal_ofProduct) m hm

theorem toPoly_simplify (f : QuadForm) :
    f.simplify.toPoly = ⟨f.uncancelled.map toProduct, f.linearPart⟩ := by
  have h : f.simplify.toPoly = _ := Poly.toPoly_toForm f.genuine_simplify
  rw [h, List.filter_map]
  rfl

/-- No two products of a simplified form have the same sides up to factors and order. -/
theorem nodup_monicSides (f : QuadForm) :
    (f.simplify.toPoly.products.map Product.monicSides).Nodup := by
  rw [toPoly_simplify, List.map_map]
  refine List.pairwise_map.mpr (f.ascending_uncancelled.imp_of_mem fun {m n} hm hn hlt ↦ ?_)
  obtain ⟨hm, hmc⟩ := normal_of_mem_uncancelled hm
  obtain ⟨hn, hnc⟩ := normal_of_mem_uncancelled hn
  rw [Function.comp_apply, Function.comp_apply, monicSides_toProduct hm hmc,
    monicSides_toProduct hn hnc]
  exact sides_ne_of_lt hm hn hlt

/-- The form consists of products with variables on both sides, each pair of monic sides once, and
at most one linear term after them. -/
structure Collected (f : QuadForm) (products last : List Product) : Prop where
  terms : f.terms = products ++ last
  variable_sides : ∀ p ∈ products,
    Affine.asConstant? p.lhs = none ∧ Affine.asConstant? p.rhs = none
  monic_rhs : ∀ p ∈ products, p.rhs.leading? = some 1
  distinct : (products.map Product.monicSides).Nodup
  last_length : last.length ≤ 1
  last_rhs : ∀ p ∈ last, p.rhs = Affine.constant 1

theorem collected_simplify (f : QuadForm) :
    Collected f.simplify f.simplify.toPoly.products f.simplify.toPoly.last where
  terms := (standard_simplify f).terms
  variable_sides p hp := by
    rw [Affine.asConstant?_eq_none, Affine.asConstant?_eq_none]
    exact Product.asAffine?_eq_none.mp (asAffine?_of_mem_products hp)
  monic_rhs p hp := by
    rw [toPoly_simplify] at hp
    obtain ⟨m, hm, rfl⟩ := List.mem_map.mp hp
    exact (normal_of_mem_uncancelled hm).1.leading_rhs
  distinct := f.nodup_monicSides
  last_length := List.length_filter_le _ _
  last_rhs p hp := by rw [List.mem_singleton.mp (List.mem_of_mem_filter hp)]

/-- Simplification keeps the value of a form under every assignment, brings in no wires and collects
the products with the same sides and the linear terms. -/
theorem simplify_collects (f : QuadForm) :
    (∀ r, f.simplify.eval r = f.eval r) ∧ f.simplify.wires ⊆ f.wires ∧
      ∃ products last, Collected f.simplify products last :=
  ⟨fun r ↦ eval_simplify r f, fun _ ↦ mem_wires_simplify, _, _, collected_simplify f⟩

end QuadForm

/-! ## Rearranged forms -/

/-- What simplification adds up for the product: an affine sum or a monic product. -/
def Product.summand (p : Product) : Affine Wire ⊕ MonicProduct :=
  match p.asAffine? with
  | some a => .inl a
  | none => .inr (ofProduct p)

namespace Product

theorem summand_swap (p : Product) : p.swap.summand = p.summand := by
  rw [summand, summand, asAffine?_swap, ofProduct_swap]

theorem summand_balance {k : Scalar} (hk : k ≠ 0) (p : Product) :
    (p.balance k).summand = p.summand := by
  rw [summand, summand, asAffine?_balance hk]
  cases h : p.asAffine? with
  | some a => rfl
  | none => rw [ofProduct_balance hk h]

/-- The products are permuted, their sides exchanged, and factors moved from one side to the other,
any number of times.  The last two happen to the first product; a permutation brings every product
there. -/
inductive Rearranged : List Product → List Product → Prop
  | perm {ps qs : List Product} : ps.Perm qs → Rearranged ps qs
  | swap (p : Product) (ps : List Product) : Rearranged (p :: ps) (p.swap :: ps)
  | balance {k : Scalar} (hk : k ≠ 0) (p : Product) (ps : List Product) :
    Rearranged (p :: ps) (p.balance k :: ps)
  | trans {ps qs rs : List Product} : Rearranged ps qs → Rearranged qs rs → Rearranged ps rs

theorem Rearranged.perm_summand {ps qs : List Product} (h : Rearranged ps qs) :
    (ps.map summand).Perm (qs.map summand) := by
  induction h with
  | perm h => exact h.map _
  | swap p ps => rw [List.map_cons, List.map_cons, summand_swap]
  | balance hk p ps => rw [List.map_cons, List.map_cons, summand_balance hk]
  | trans _ _ ih₁ ih₂ => exact ih₁.trans ih₂

end Product

namespace QuadForm

open Product

theorem linearPart_eq (f : QuadForm) :
    f.linearPart = ((f.terms.map summand).filterMap Sum.getLeft?).foldl (· + ·) 0 := by
  have hleft : Sum.getLeft? ∘ summand = asAffine? := by
    funext p
    rw [Function.comp_apply, summand]
    cases p.asAffine? <;> rfl
  rw [linearPart, List.filterMap_map, hleft]

theorem monicPart_eq_collect (f : QuadForm) :
    f.monicPart = collect [] ((f.terms.map summand).filterMap Sum.getRight?) := by
  have hright (ps : List Product) : (ps.filter (·.asAffine?.isNone)).map ofProduct =
      (ps.map summand).filterMap Sum.getRight? := by
    induction ps with
    | nil => rfl
    | cons p ps ih =>
      rw [List.map_cons, List.filter_cons, List.filterMap_cons, ← ih, summand]
      cases p.asAffine? <;> rfl
  rw [monicPart_eq, hright]

/-- Sums of affine sums do not depend on their order. -/
theorem foldl_add_perm {as bs : List (Affine Wire)} (h : as.Perm bs) :
    as.foldl (· + ·) 0 = bs.foldl (· + ·) 0 := by
  refine h.foldl_eq' (fun a _ b _ s ↦ Sparse.ext_of_eval fun r ↦ ?_) 0
  rw [Sparse.eval_add, Sparse.eval_add, Sparse.eval_add, Sparse.eval_add, add_right_comm]

/-- The simplified form depends only on what is added up. -/
theorem simplify_of_perm_summand {f g : QuadForm}
    (h : (f.terms.map summand).Perm (g.terms.map summand)) : g.simplify = f.simplify := by
  have hlinear : g.linearPart = f.linearPart := by
    rw [linearPart_eq, linearPart_eq, foldl_add_perm (h.filterMap _)]
  have hmonic : g.monicPart = f.monicPart := by
    rw [monicPart_eq_collect, monicPart_eq_collect, collect_perm (h.filterMap _)]
  rw [simplify, simplify, hlinear, hmonic]

/-- The monic products of a simplified form are those that it is written with. -/
theorem monicPart_simplify (f : QuadForm) : f.simplify.monicPart = f.uncancelled := by
  have hback : (f.uncancelled.map toProduct).map ofProduct = f.uncancelled := by
    rw [List.map_map]
    refine (List.map_congr_left fun m hm ↦ ?_).trans (List.map_id _)
    obtain ⟨hnormal, hcoeff⟩ := normal_of_mem_uncancelled hm
    exact ofProduct_toProduct hnormal hcoeff
  have hproducts : f.simplify.terms.filter (·.asAffine?.isNone) = f.uncancelled.map toProduct :=
    congrArg Poly.products f.toPoly_simplify
  rw [monicPart_eq, hproducts, hback]
  exact collect_of_ascending f.ascending_uncancelled

theorem simplify_simplify (f : QuadForm) : f.simplify.simplify = f.simplify := by
  have hpoly : f.simplify.toPoly.toForm = f.simplify := standard_simplify f
  have hlinear : f.simplify.linearPart = f.linearPart := congrArg Poly.linear f.toPoly_simplify
  rw [simplify, monicPart_simplify, hlinear]
  rw [toPoly_simplify] at hpoly
  exact hpoly

/-- A form that is simplified stays as it is, and rearranging the products of a form does not change
its simplified form. -/
theorem simplify_canonical (f : QuadForm) : f.simplify.simplify = f.simplify ∧
    ∀ g : QuadForm, Rearranged f.terms g.terms → g.simplify = f.simplify :=
  ⟨simplify_simplify f, fun _ h ↦ simplify_of_perm_summand h.perm_summand⟩

/-- Two products with like sides in either order, and a product with a constant side. -/
def likeProducts : List Product :=
  [⟨complement 1, Affine.monomial 2 (.reduce 3)⟩, ⟨Affine.monomial 2 (.reduce 5), complement 1⟩,
    ⟨Affine.var 4, Affine.constant (-1)⟩]

/-- The same products in the opposite order, the linear one with its sides exchanged, another one
with a factor that has moved. -/
def likeProducts' : List Product :=
  [⟨Affine.constant (-1), Affine.var 4⟩, ⟨Affine.monomial 2 (.reduce 5), complement 1⟩,
    Product.balance (.reduce 2) ⟨complement 1, Affine.monomial 2 (.reduce 3)⟩]

theorem simplify_canonical_likeProducts :
    Rearranged (ofProducts likeProducts).terms (ofProducts likeProducts').terms ∧
      (ofProducts likeProducts').simplify = (ofProducts likeProducts).simplify := by
  have hterms : (ofProducts likeProducts).terms = likeProducts := by decide +kernel
  have hterms' : (ofProducts likeProducts').terms = likeProducts' := by decide +kernel
  have h : Rearranged (ofProducts likeProducts).terms (ofProducts likeProducts').terms := by
    rw [hterms, hterms']
    refine (Rearranged.balance (k := .reduce 2) (by decide +kernel) _ _).trans ?_
    refine (Rearranged.perm (List.reverse_perm _).symm).trans ?_
    exact .swap _ _
  exact ⟨h, (simplify_canonical _).2 _ h⟩

end QuadForm

end Quadratize
