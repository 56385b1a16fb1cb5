import Quadratize.Proofs.Formula.Read
import Quadratize.Proofs.Scalar.Literal

/-!
# Rendered forms are read back

A written form denotes the polynomial that the form stands for.  A term carries its sign in front,
so the texts of terms denote polynomials up to a sign, which becomes an operator between two terms.
A form in standard shape is read back as it is.
-/

namespace Quadratize

open Text Formula

namespace Formula

/-! ## Signed terms -/

/-- The text is a term, maybe behind a minus sign. -/
inductive DenotesSigned : List Char → Poly → Prop
  | plain {cs : List Char} {p : Poly} (h : Denotes .term cs p) : DenotesSigned cs p
  | minus {cs : List Char} {p : Poly} (h : Denotes .term cs p) : DenotesSigned ('-' :: cs) p.neg

/-- A further term; a minus sign at its start becomes the operator. -/
def nextTerm : List Char → List Char
  | '-' :: cs => " - ".toList ++ cs
  | cs => " + ".toList ++ cs

theorem nextTerm_of_head? {cs : List Char} (h : cs.head? ≠ some '-') :
    nextTerm cs = " + ".toList ++ cs := by
  unfold nextTerm
  split
  · exact absurd rfl h
  · rfl

namespace Poly

theorem scale_neg (a : Affine Wire) (c : Scalar) : (-a).scale c = -(a.scale c) :=
  Sparse.ext_of_eval fun r ↦ by simp

theorem scale_of_neg (a : Affine Wire) (c : Scalar) : a.scale (-c) = -(a.scale c) :=
  Sparse.ext_of_eval fun r ↦ by simp

theorem asAffine?_neg (p : Poly) : p.neg.asAffine? = p.asAffine?.map (-·) := by
  rw [asAffine?, asAffine?, neg, List.isEmpty_map]
  split
  · rfl
  · rfl

theorem asConstant?_neg (p : Poly) : p.neg.asConstant? = p.asConstant?.map (-·) := by
  rw [asConstant?, asConstant?, asAffine?_neg]
  cases p.asAffine? with
  | none => rfl
  | some a =>
    change Affine.asConstant? (-a) = (Affine.asConstant? a).map (-·)
    cases h : Affine.asConstant? a with
    | none => rwa [Option.map_none, Affine.asConstant?_eq_none, Affine.vars_neg,
        ← Affine.asConstant?_eq_none]
    | some c =>
      obtain rfl := Affine.asConstant?_eq_some.mp h
      refine Affine.asConstant?_eq_some.mpr (Sparse.ext_of_eval fun r ↦ ?_)
      simp [Affine.constant]

/-- The sign of the first factor is the sign of the product. -/
theorem mul?_neg (p q : Poly) : p.neg.mul? q = (p.mul? q).map neg := by
  have hscale (c : Scalar) : p.neg.scale c = (p.scale c).neg := by
    simp only [scale, neg, List.map_map, Function.comp_def, scale_neg]
  have hscale' (c : Scalar) : q.scale (-c) = (q.scale c).neg := by
    simp only [scale, neg, List.map_map, Function.comp_def, scale_of_neg]
  rw [mul?, mul?, asConstant?_neg, asAffine?_neg]
  cases q.asConstant? with
  | some c => exact congrArg some (hscale c)
  | none =>
    cases p.asConstant? with
    | some c => exact congrArg some (hscale' c)
    | none =>
      cases p.asAffine? with
      | none => rfl
      | some a =>
        cases q.asAffine? with
        | none => rfl
        | some b => rfl

end Poly

namespace DenotesSigned

variable {cs ds : List Char} {p q r : Poly}

theorem sum (h : DenotesSigned cs p) : Denotes .sum cs p := by
  cases h with
  | plain h => exact h.sum
  | minus h => exact h.neg

theorem times (hcs : DenotesSigned cs p) (hds : Denotes .factor ds q) (h : p.mul? q = some r) :
    DenotesSigned (cs ++ " * ".toList ++ ds) r := by
  cases hcs with
  | plain hcs => exact .plain (hcs.times separates_times.spaced hds h)
  | minus hcs =>
    rw [Poly.mul?_neg] at h
    obtain ⟨s, hs, rfl⟩ := Option.map_eq_some_iff.mp h
    exact .minus (hcs.times separates_times.spaced hds hs)

/-- A further term is added with its sign. -/
theorem next (hcs : Denotes .sum cs p) (hds : DenotesSigned ds q) :
    Denotes .sum (cs ++ nextTerm ds) (p.add q) := by
  cases hds with
  | plain hds =>
    rw [nextTerm_of_head? (hds.head?_ne_minus nofun), ← List.append_assoc]
    exact hcs.plus hds
  | minus hds =>
    rw [nextTerm, ← List.append_assoc]
    exact hcs.minus hds

/-- A sum is continued term by term. -/
theorem flatMap {α : Type} {f : α → List Char} {g : α → Poly} (h : ∀ a, DenotesSigned (f a) (g a))
    (l : List α) (hcs : Denotes .sum cs p) :
    Denotes .sum (cs ++ l.flatMap fun a ↦ nextTerm (f a)) (l.foldl (fun p a ↦ p.add (g a)) p) := by
  induction l generalizing cs p with
  | nil => rwa [List.flatMap_nil, List.append_nil]
  | cons a l ih =>
    rw [List.flatMap_cons, ← List.append_assoc]
    exact ih (next hcs (h a))

end DenotesSigned

end Formula

/-! ## Affine sums -/

namespace Affine

variable {a : Affine Wire}

theorem single_neg_neg (k : Option Wire) (c : Scalar) :
    -(Sparse.single k (-c)) = Sparse.single k c :=
  Sparse.ext_of_eval fun r ↦ by simp

theorem toPoly_constant_var (c : Scalar) (w : Wire) :
    Product.toPoly ⟨constant c, var w⟩ = .ofAffine (Sparse.single (some w) c) := by
  rw [Product.toPoly, Product.asAffine?_constant_left (vars_var_ne_nil w)]
  exact congrArg Poly.ofAffine (Sparse.ext_of_eval fun r ↦ by simp [var, monomial, mul_comm])

theorem denotes_renderTerm (t : Option Wire × Scalar) :
    Denotes .term (renderTerm t)
      (.ofAffine (Sparse.single t.1 (Scalar.reduce t.2.magnitude))) := by
  obtain ⟨k, c⟩ := t
  cases k with
  | none => exact (Denotes.number c.magnitude).term
  | some w =>
    simp only [renderTerm]
    split
    · rename_i hunit
      have hone : Scalar.reduce c.magnitude = 1 := by
        rw [Scalar.reduce_magnitude]
        rcases hunit with rfl | hc
        · rfl
        · obtain rfl : c = -1 := by rw [← hc, neg_neg]
          rfl
      rw [hone]
      exact (Denotes.wire w).term
    · have htimes := (Denotes.number c.magnitude).term.times separates_times (Denotes.wire w)
        (Product.mul?_ofAffine _ _)
      rw [List.append_assoc, List.singleton_append, toPoly_constant_var] at htimes
      exact htimes

/-- The first term of a sum carries its sign. -/
theorem denotesSigned_renderFirst (t : Option Wire × Scalar) :
    DenotesSigned (renderFirst t) (.ofAffine (Sparse.single t.1 t.2)) := by
  have hterm := denotes_renderTerm t
  rw [Scalar.reduce_magnitude] at hterm
  unfold renderFirst
  split
  · rename_i hneg
    rw [if_pos hneg] at hterm
    have heq : (Poly.ofAffine (Sparse.single t.1 (-t.2))).neg =
        .ofAffine (Sparse.single t.1 t.2) :=
      congrArg (Poly.mk []) (single_neg_neg t.1 t.2)
    have hsigned := DenotesSigned.minus hterm
    rwa [heq] at hsigned
  · rename_i hneg
    rw [if_neg hneg] at hterm
    exact .plain hterm

theorem renderNext_eq (t : Option Wire × Scalar) : renderNext t = nextTerm (renderFirst t) := by
  unfold renderNext renderFirst
  split
  · rfl
  · rw [nextTerm_of_head? ((denotes_renderTerm t).head?_ne_minus nofun)]

theorem foldl_add_single (b : Affine Wire) (ts : List (Option Wire × Scalar)) :
    ts.foldl (fun p t ↦ p.add (.ofAffine (Sparse.single t.1 t.2))) (Poly.ofAffine b) =
      .ofAffine (ts.foldl (fun b t ↦ b + Sparse.single t.1 t.2) b) := by
  induction ts generalizing b with
  | nil => rfl
  | cons t ts ih => exact ih _

theorem eval_foldl_single (r : Option Wire → Scalar) (ts : List (Option Wire × Scalar))
    (b : Affine Wire) : Sparse.eval r (ts.foldl (fun b t ↦ b + Sparse.single t.1 t.2) b) =
      Sparse.eval r b + (ts.map fun t ↦ t.2 * r t.1).sum := by
  induction ts generalizing b with
  | nil => simp
  | cons t ts ih =>
    rw [List.foldl_cons, ih, Sparse.eval_add, Sparse.eval_single, List.map_cons, List.sum_cons,
      add_assoc]

/-- A written sum denotes the sum. -/
theorem denotes_render (a : Affine Wire) : Denotes .sum a.render (.ofAffine a) := by
  unfold render
  split
  · rename_i hterms
    obtain rfl : a = 0 := Sparse.ext hterms
    exact (Denotes.number 0).term.sum
  · rename_i t rest hterms
    have hsum := DenotesSigned.flatMap denotesSigned_renderFirst rest
      (denotesSigned_renderFirst t).sum
    have hvalue : rest.foldl (fun (b : Affine Wire) u ↦ b + Sparse.single u.1 u.2)
        (Sparse.single t.1 t.2) = a := by
      refine Sparse.ext_of_eval fun r ↦ ?_
      rw [eval_foldl_single, Sparse.eval_single, Sparse.eval, hterms, List.map_cons, List.sum_cons]
    rw [foldl_add_single, hvalue] at hsum
    rwa [show renderNext = fun u ↦ nextTerm (renderFirst u) from funext renderNext_eq]

theorem denotes_zero : Denotes .factor ['0'] (.ofAffine 0) :=
  .number 0

/-- A sum of at most one term is written without parentheses. -/
theorem terms_of_size (h : ¬2 ≤ a.size) : a.terms = [] ∨ ∃ t, a.terms = [t] := by
  match hterms : a.terms with
  | [] => exact .inl rfl
  | [t] => exact .inr ⟨t, rfl⟩
  | t :: u :: rest =>
    rw [Sparse.size, hterms] at h
    simp at h

theorem single_of_terms {t : Option Wire × Scalar} (h : a.terms = [t]) :
    Sparse.single t.1 t.2 = a :=
  Sparse.ext_of_eval fun r ↦ by rw [Sparse.eval_single, Sparse.eval, h]; simp

/-- A left side carries its sign in front if it is a single term. -/
theorem denotesSigned_renderLeft (a : Affine Wire) : DenotesSigned a.renderLeft (.ofAffine a) := by
  unfold renderLeft
  split
  · exact .plain a.denotes_render.parens.term
  · rename_i hsize
    rcases terms_of_size hsize with hterms | ⟨t, hterms⟩
    · obtain rfl : a = 0 := Sparse.ext hterms
      exact .plain denotes_zero.term
    · have hfirst := denotesSigned_renderFirst t
      rw [single_of_terms hterms] at hfirst
      rw [render, hterms]
      change DenotesSigned (renderFirst t ++ []) _
      rwa [List.append_nil]

/-- A right side is a factor. -/
theorem denotes_renderRight (a : Affine Wire) : Denotes .factor a.renderRight (.ofAffine a) := by
  unfold renderRight
  split
  · exact a.denotes_render.parens
  · rename_i h
    obtain ⟨hsize, hcoeff⟩ := not_or.mp h
    rcases terms_of_size hsize with hterms | ⟨⟨k, c⟩, hterms⟩
    · obtain rfl : a = 0 := Sparse.ext hterms
      exact denotes_zero
    · obtain rfl : c = 1 := by simpa [hterms] using hcoeff
      rw [render, hterms, ← single_of_terms hterms]
      cases k with
      | none => exact .number 1
      | some w =>
        have hfirst : renderFirst (some w, 1) = w.placeholder := rfl
        change Denotes .factor (renderFirst (some w, 1) ++ []) _
        rw [List.append_nil, hfirst]
        exact .wire w

end Affine

/-! ## Products and forms -/

namespace Product

theorem isUnit_iff {a : Affine Wire} : Affine.isUnit a = true ↔ a = Affine.constant 1 := by
  rw [Affine.isUnit, decide_eq_true_eq, Affine.asConstant?_eq_some]

theorem toPoly_of_isZero {p : Product} (h : p.isZero = true) : p.toPoly = .ofAffine 0 := by
  have haff : p.asAffine? = some 0 := by
    obtain ⟨a, b⟩ := p
    rcases Bool.or_eq_true_iff.mp h with ha | hb
    · obtain rfl : a = 0 := Sparse.ext (List.isEmpty_iff.mp ha)
      by_cases hvars : Affine.vars b = []
      · obtain ⟨c, rfl⟩ := Affine.exists_eq_constant hvars
        rw [asAffine?_constant, Sparse.zero_scale]
      · rw [show (0 : Affine Wire) = Affine.constant 0 from rfl, asAffine?_constant_left hvars]
        exact congrArg some (Sparse.scale_zero b)
    · obtain rfl : b = Affine.constant 0 := Sparse.ext (List.isEmpty_iff.mp hb)
      rw [asAffine?_constant, Sparse.scale_zero]
  rw [toPoly, haff]

theorem toPoly_unit_right (a : Affine Wire) : toPoly ⟨a, Affine.constant 1⟩ = .ofAffine a := by
  rw [toPoly, asAffine?_constant, Affine.scale_one]

theorem toPoly_unit_left (a : Affine Wire) : toPoly ⟨Affine.constant 1, a⟩ = .ofAffine a := by
  by_cases h : Affine.vars a = []
  · obtain ⟨c, rfl⟩ := Affine.exists_eq_constant h
    rw [toPoly, asAffine?_constant]
    exact congrArg Poly.ofAffine (Sparse.ext_of_eval fun r ↦ by simp [Affine.constant, mul_comm])
  · rw [toPoly, asAffine?_constant_left h, Affine.scale_one]

/-- A written product denotes its polynomial. -/
theorem denotesSigned_render (p : Product) : DenotesSigned p.render p.toPoly := by
  obtain ⟨a, b⟩ := p
  unfold render
  split
  · rename_i hzero
    rw [toPoly_of_isZero hzero]
    exact .plain Affine.denotes_zero.term
  · split
    · rename_i hunit
      obtain rfl := isUnit_iff.mp hunit
      rw [toPoly_unit_right]
      exact a.denotesSigned_renderLeft
    · split
      · rename_i hunit
        obtain rfl := isUnit_iff.mp hunit
        rw [toPoly_unit_left]
        exact b.denotesSigned_renderLeft
      · exact a.denotesSigned_renderLeft.times b.denotes_renderRight (mul?_ofAffine a b)

end Product

namespace QuadForm

theorem foldl_add_toPoly (ps : List Product) (q : Poly) :
    ps.foldl (fun q p ↦ q.add p.toPoly) q =
      ⟨q.products ++ ps.filter (·.asAffine?.isNone),
        (ps.filterMap Product.asAffine?).foldl (· + ·) q.linear⟩ := by
  induction ps generalizing q with
  | nil => rw [List.foldl_nil, List.filter_nil, List.append_nil, List.filterMap_nil, List.foldl_nil]
  | cons p ps ih =>
    rw [List.foldl_cons, ih, Product.toPoly]
    cases hp : p.asAffine? with
    | none =>
      rw [List.filterMap_cons_none hp, List.filter_cons_of_pos (by simp [hp])]
      simp [Poly.add]
      rfl
    | some a =>
      rw [List.filterMap_cons_some hp, List.filter_cons_of_neg (by simp [hp])]
      simp [Poly.add, Poly.ofAffine]

/-- A written form denotes its polynomial. -/
theorem denotes_render (f : QuadForm) : Denotes .sum f.render f.toPoly := by
  have hpoly : f.terms.foldl (fun q p ↦ q.add p.toPoly) (.ofAffine 0) = f.toPoly :=
    foldl_add_toPoly f.terms (.ofAffine 0)
  unfold render
  split
  · rename_i hterms
    rw [← hpoly, hterms]
    exact Affine.denotes_zero.term.sum
  · rename_i p rest hterms
    have hzero : 0 + p.toPoly.linear = p.toPoly.linear :=
      Sparse.ext_of_eval fun r ↦ by rw [Sparse.eval_add, Sparse.eval_zero, zero_add]
    have hfirst : (Poly.ofAffine 0).add p.toPoly = p.toPoly :=
      congrArg (Poly.mk p.toPoly.products) hzero
    rw [← hpoly, hterms, List.foldl_cons, hfirst]
    exact DenotesSigned.flatMap Product.denotesSigned_render rest p.denotesSigned_render.sum

/-- A written form is read as the form of its polynomial. -/
theorem read_render (f : QuadForm) : read f.render = .ok f.toPoly.toForm :=
  f.denotes_render.read

end QuadForm

end Quadratize
