import Mathlib.Data.Finsupp.Basic
import Quadratize.Constraint.Basic
import Quadratize.Proofs.Sparse.Eval

/-!
# Sparse sums are canonical

However a sum has been made, its terms list the coefficients that it must have: by strictly
ascending keys, and none that is zero.  The coefficients are described without lists, as functions
with finite support, so the list depends on them alone.  Values determine the coefficients, even
where the missing key has no value but one.
-/

namespace Quadratize

namespace Sparse

variable {κ ι : Type} [Key κ] [Key ι]

/-! ## Coefficients -/

/-- The coefficients of the keys, almost all of them zero. -/
noncomputable def coefficients (s : Sparse κ) : κ →₀ Scalar :=
  (s.terms.map fun t ↦ Finsupp.single t.1 t.2).sum

omit [Key κ] in
/-- A sum of terms with renamed keys has the coefficient that an indicator finds. -/
theorem sum_single_apply (f : κ → ι) (l : List (κ × Scalar)) (j : ι) :
    (l.map fun t ↦ Finsupp.single (f t.1) t.2).sum j =
      (l.map fun t ↦ t.2 * indicator j (f t.1)).sum := by
  induction l with
  | nil => rfl
  | cons t l ih =>
    have hterm : Finsupp.single (f t.1) t.2 j = t.2 * indicator j (f t.1) := by
      unfold indicator
      split_ifs with h
      · rw [Key.rank_inj h, Finsupp.single_eq_same, mul_one]
      · rw [Finsupp.single_eq_of_ne (fun he ↦ h (congrArg Key.rank he.symm)), mul_zero]
    rw [List.map_cons, List.sum_cons, Finsupp.add_apply, ih, hterm, List.map_cons, List.sum_cons]

/-- The coefficient of a key is the value at its indicator. -/
theorem coefficients_apply (s : Sparse κ) (k : κ) : s.coefficients k = s.eval (indicator k) :=
  sum_single_apply id s.terms k

theorem indicator_of_ne {j k : κ} (h : j ≠ k) : indicator k j = 0 :=
  if_neg fun he ↦ h (Key.rank_inj he)

@[simp] theorem coefficients_zero : (0 : Sparse κ).coefficients = 0 := rfl

@[simp] theorem coefficients_addTerm (s : Sparse κ) (k : κ) (c : Scalar) :
    (s.addTerm k c).coefficients = s.coefficients + Finsupp.single k c := by
  refine Finsupp.ext fun j ↦ ?_
  have hsingle := sum_single_apply id [(k, c)] j
  rw [Finsupp.add_apply, coefficients_apply, eval_addTerm, ← coefficients_apply]
  simpa using hsingle.symm

@[simp] theorem coefficients_single (k : κ) (c : Scalar) :
    (single k c).coefficients = Finsupp.single k c := by
  rw [single, coefficients_addTerm, coefficients_zero, zero_add]

@[simp] theorem coefficients_add (s t : Sparse κ) :
    (s + t).coefficients = s.coefficients + t.coefficients := by
  refine Finsupp.ext fun k ↦ ?_
  rw [Finsupp.add_apply, coefficients_apply, eval_add, coefficients_apply, coefficients_apply]

@[simp] theorem coefficients_neg (s : Sparse κ) : (-s).coefficients = -s.coefficients := by
  refine Finsupp.ext fun k ↦ ?_
  rw [Finsupp.neg_apply, coefficients_apply, eval_neg, coefficients_apply]

@[simp] theorem coefficients_sub (s t : Sparse κ) :
    (s - t).coefficients = s.coefficients - t.coefficients := by
  refine Finsupp.ext fun k ↦ ?_
  rw [Finsupp.sub_apply, coefficients_apply, eval_sub, coefficients_apply, coefficients_apply]

@[simp] theorem coefficients_scale (s : Sparse κ) (c : Scalar) :
    (s.scale c).coefficients = c • s.coefficients := by
  refine Finsupp.ext fun k ↦ ?_
  rw [Finsupp.smul_apply, coefficients_apply, eval_scale, coefficients_apply, smul_eq_mul, mul_comm]

/-- A key that is left out has the coefficient zero, and the others keep theirs. -/
@[simp] theorem coefficients_erase (s : Sparse κ) (k : κ) :
    (s.erase k).coefficients = s.coefficients.erase k := by
  refine Finsupp.ext fun j ↦ ?_
  rw [coefficients_apply]
  by_cases h : j = k
  · have hzero : (s.erase k).eval (indicator j) = (s.erase k).eval 0 :=
      eval_congr fun i hi ↦ indicator_of_ne (h ▸ (mem_keys_erase.mp hi).2)
    rw [hzero, h, Finsupp.erase_same, eval]
    simp
  · rw [eval_erase (indicator_of_ne (Ne.symm h)), ← coefficients_apply, Finsupp.erase_ne h]

/-- Keys that become equal have their coefficients added up. -/
@[simp] theorem coefficients_map (f : κ → ι) (s : Sparse κ) :
    (s.map f).coefficients = s.coefficients.mapDomain f := by
  have hsum : s.coefficients.mapDomain f =
      (s.terms.map fun t ↦ Finsupp.single (f t.1) t.2).sum := by
    change Finsupp.mapDomain.addMonoidHom f s.coefficients = _
    rw [coefficients, map_list_sum, List.map_map]
    congr 2
    funext t
    exact Finsupp.mapDomain_single
  refine Finsupp.ext fun j ↦ ?_
  rw [coefficients_apply, eval_map, hsum, sum_single_apply]
  rfl

theorem coefficients_foldl_addTerm (ts : List (κ × Scalar)) (s : Sparse κ) :
    (ts.foldl (fun s t ↦ s.addTerm t.1 t.2) s).coefficients =
      s.coefficients + (ts.map fun t ↦ Finsupp.single t.1 t.2).sum := by
  induction ts generalizing s with
  | nil => simp
  | cons t ts ih =>
    rw [List.foldl_cons, ih, coefficients_addTerm, List.map_cons, List.sum_cons, add_assoc]

/-! ## Lists of coefficients -/

/-- The list shows the coefficients: keys ascend strictly, and exactly the coefficients that are not
zero are listed, by their representatives below the order. -/
structure Lists (ts : List (κ × Scalar)) (p : κ →₀ Scalar) : Prop where
  ascending : ts.Pairwise fun s t ↦ Key.rank s.1 < Key.rank t.1
  mem_iff : ∀ k c, (k, c) ∈ ts ↔ c ≠ 0 ∧ p k = c
  reduced : ∀ t ∈ ts, t.2.val < order

/-- A term of an ascending list holds the whole coefficient of its key. -/
theorem sum_indicator_of_mem {l : List (κ × Scalar)} {k : κ} {c : Scalar}
    (hl : l.Pairwise fun s t ↦ Key.rank s.1 < Key.rank t.1) (h : (k, c) ∈ l) :
    (l.map fun t ↦ t.2 * indicator k t.1).sum = c := by
  induction l with
  | nil => cases h
  | cons u l ih =>
    obtain ⟨hu, hl⟩ := List.pairwise_cons.mp hl
    rcases List.mem_cons.mp h with rfl | h
    · exact sum_cons_indicator k c hu
    · have hne : Key.rank u.1 ≠ Key.rank k := (hu _ h).ne
      rw [List.map_cons, List.sum_cons, ih hl h, indicator, if_neg hne, mul_zero, zero_add]

theorem coefficients_of_mem {s : Sparse κ} {k : κ} {c : Scalar} (h : (k, c) ∈ s.terms) :
    s.coefficients k = c :=
  (coefficients_apply s k).trans (sum_indicator_of_mem s.ascending h)

theorem coefficients_of_notMem {s : Sparse κ} {k : κ} (h : k ∉ s.keys) : s.coefficients k = 0 := by
  have hzero : s.eval (indicator k) = s.eval 0 :=
    eval_congr fun j hj ↦ indicator_of_ne (ne_of_mem_of_not_mem hj h)
  rw [coefficients_apply, hzero, eval]
  simp

/-- The terms of a sum list its coefficients. -/
theorem lists_terms (s : Sparse κ) : Lists s.terms s.coefficients where
  ascending := s.ascending
  mem_iff := by
    intro k c
    constructor
    · exact fun h ↦ ⟨s.nonzero _ h, coefficients_of_mem h⟩
    · rintro ⟨hc, rfl⟩
      have hkey : k ∈ s.keys := by
        by_contra hkey
        exact hc (coefficients_of_notMem hkey)
      obtain ⟨⟨j, d⟩, ht, rfl⟩ := mem_keys.mp hkey
      rwa [coefficients_of_mem ht]
  reduced := fun t _ ↦ t.2.isLt

/-! ## Equal values -/

theorem eq_iff_eval {s t : Sparse κ} : s = t ↔ ∀ r, s.eval r = t.eval r :=
  ⟨fun h _ ↦ h ▸ rfl, ext_of_eval⟩

theorem isZero_iff_eq {s : Sparse κ} : s.isZero = true ↔ s = 0 :=
  ⟨fun h ↦ ext (List.isEmpty_iff.mp h), fun h ↦ h ▸ rfl⟩

theorem isZero_iff_eval {s : Sparse κ} : s.isZero = true ↔ ∀ r, s.eval r = 0 :=
  isZero_iff_eq.trans eq_iff_eval

/-- The value is linear in the values of the keys. -/
theorem eval_combine {q r r' : κ → Scalar} {x : Scalar} (s : Sparse κ)
    (h : ∀ k, q k = r k + x * r' k) : s.eval q = s.eval r + x * s.eval r' := by
  unfold eval
  induction s.terms with
  | nil => simp
  | cons t l ih =>
    rw [List.map_cons, List.sum_cons, ih, h, List.map_cons, List.sum_cons, List.map_cons,
      List.sum_cons]
    ring

end Sparse

namespace Affine

variable {κ ι : Type} [Key κ] [Key ι]

/-- A value of the missing key other than one counts the constant term once more or less. -/
theorem sparse_eval_eq (q : Option κ → Scalar) (a : Affine κ) :
    Sparse.eval q a = eval (q ∘ some) a + (q none - 1) * eval 0 a := by
  refine Sparse.eval_combine a fun k ↦ ?_
  cases k with
  | none => simp [atKey]
  | some k => simp [atKey]

/-- An affine sum is determined by its values at all assignments of its variables. -/
theorem eq_iff_eval {a b : Affine κ} : a = b ↔ ∀ r, eval r a = eval r b := by
  refine ⟨fun h _ ↦ h ▸ rfl, fun h ↦ Sparse.ext_of_eval fun q ↦ ?_⟩
  rw [sparse_eval_eq, sparse_eval_eq, h, h]

theorem isZero_iff_eval {a : Affine κ} : a.isZero = true ↔ ∀ r, eval r a = 0 :=
  Sparse.isZero_iff_eq.trans eq_iff_eval

/-- The constant term can only be the first. -/
theorem none_notMem_tail (a : Affine κ) : none ∉ a.keys.tail := by
  have hasc := a.ascending
  rw [Sparse.keys]
  cases hterms : a.terms with
  | nil => simp
  | cons t l =>
    rw [hterms] at hasc
    intro h
    obtain ⟨u, hu, hnone⟩ := List.mem_map.mp h
    have hlt := (List.pairwise_cons.mp hasc).1 u hu
    rw [hnone] at hlt
    exact Nat.not_lt_zero _ hlt

/-! ## Sums by the way they are made -/

/-- A way to make an affine sum. -/
inductive Construction : (κ : Type) → [Key κ] → Type 1
  | zero {κ : Type} [Key κ] : Construction κ
  | constant {κ : Type} [Key κ] (c : Scalar) : Construction κ
  | var {κ : Type} [Key κ] (k : κ) : Construction κ
  | monomial {κ : Type} [Key κ] (k : κ) (c : Scalar) : Construction κ
  | addTerm {κ : Type} [Key κ] (e : Construction κ) (k : Option κ) (c : Scalar) : Construction κ
  | scale {κ : Type} [Key κ] (e : Construction κ) (c : Scalar) : Construction κ
  | add {κ : Type} [Key κ] (e f : Construction κ) : Construction κ
  | sub {κ : Type} [Key κ] (e f : Construction κ) : Construction κ
  | neg {κ : Type} [Key κ] (e : Construction κ) : Construction κ
  | erase {κ : Type} [Key κ] (e : Construction κ) (k : κ) : Construction κ
  | rename {κ ι : Type} [Key κ] [Key ι] (f : κ → ι) (e : Construction κ) : Construction ι

namespace Construction

/-- The sum that is made. -/
def run {κ : Type} [Key κ] : Construction κ → Affine κ
  | zero => 0
  | constant c => Affine.constant c
  | var k => Affine.var k
  | monomial k c => Affine.monomial k c
  | addTerm e k c => e.run.addTerm k c
  | scale e c => e.run.scale c
  | add e f => e.run + f.run
  | sub e f => e.run - f.run
  | neg e => -e.run
  | erase e k => e.run.erase (some k)
  | rename f e => Affine.rename f e.run

/-- The coefficients that the sum must have. -/
noncomputable def coefficients {κ : Type} [Key κ] : Construction κ → Option κ →₀ Scalar
  | zero => 0
  | constant c => .single none c
  | var k => .single (some k) 1
  | monomial k c => .single (some k) c
  | addTerm e k c => e.coefficients + .single k c
  | scale e c => c • e.coefficients
  | add e f => e.coefficients + f.coefficients
  | sub e f => e.coefficients - f.coefficients
  | neg e => -e.coefficients
  | erase e k => e.coefficients.erase (some k)
  | rename f e => e.coefficients.mapDomain (Option.map f)

/-- Every step of a construction does to the sum what it must do to the coefficients. -/
theorem coefficients_run {κ : Type} [Key κ] (e : Construction κ) :
    e.run.coefficients = e.coefficients := by
  induction e with
  | zero => exact Sparse.coefficients_zero
  | constant c => exact Sparse.coefficients_single none c
  | var k => exact Sparse.coefficients_single (some k) 1
  | monomial k c => exact Sparse.coefficients_single (some k) c
  | addTerm e k c ih => rw [run, Sparse.coefficients_addTerm, ih, coefficients]
  | scale e c ih => rw [run, Sparse.coefficients_scale, ih, coefficients]
  | add e f ihe ihf => rw [run, Sparse.coefficients_add, ihe, ihf, coefficients]
  | sub e f ihe ihf => rw [run, Sparse.coefficients_sub, ihe, ihf, coefficients]
  | neg e ih => rw [run, Sparse.coefficients_neg, ih, coefficients]
  | erase e k ih => rw [run, Sparse.coefficients_erase, ih, coefficients]
  | rename f e ih => rw [run, Affine.rename, Sparse.coefficients_map, ih, coefficients]

end Construction

end Affine

/-- A row of given terms to which further terms have been added one by one. -/
def Row.extended (ts us : List (Slot × Scalar)) : Row :=
  us.foldl (fun r t ↦ r.addTerm t.1 t.2) (Sparse.ofTerms ts)

theorem Row.coefficients_extended (ts us : List (Slot × Scalar)) :
    (Row.extended ts us).coefficients = ((ts ++ us).map fun t ↦ Finsupp.single t.1 t.2).sum := by
  rw [Row.extended, Sparse.coefficients_foldl_addTerm, Sparse.ofTerms,
    Sparse.coefficients_foldl_addTerm, Sparse.coefficients_zero, zero_add, List.map_append,
    List.sum_append]

namespace Sparse

/-- An affine sum lists the coefficients that its construction asks for, the constant term first if
there is one; two sums are equal exactly if they have the same values, and a sum counts as zero
exactly if its values are zero.  The same holds of rows that are put together from terms. -/
theorem canonical_of_construction :
    (∀ {κ : Type} [Key κ] (e f : Affine.Construction κ),
      Lists e.run.terms e.coefficients ∧ none ∉ e.run.keys.tail ∧
      (e.run = f.run ↔ ∀ r, Affine.eval r e.run = Affine.eval r f.run) ∧
      (e.run.isZero = true ↔ ∀ r, Affine.eval r e.run = 0)) ∧
    ∀ ts us vs ws : List (Slot × Scalar),
      Lists (Row.extended ts us).terms ((ts ++ us).map fun t ↦ Finsupp.single t.1 t.2).sum ∧
      (Row.extended ts us = Row.extended vs ws ↔
        ∀ r, (Row.extended ts us).eval r = (Row.extended vs ws).eval r) ∧
      ((Row.extended ts us).isZero = true ↔ ∀ r, (Row.extended ts us).eval r = 0) := by
  constructor
  · intro κ _ e f
    have hlists := lists_terms e.run
    rw [e.coefficients_run] at hlists
    exact ⟨hlists, Affine.none_notMem_tail e.run, Affine.eq_iff_eval, Affine.isZero_iff_eval⟩
  · intro ts us vs ws
    have hlists := lists_terms (Row.extended ts us)
    rw [Row.coefficients_extended] at hlists
    exact ⟨hlists, eq_iff_eval, isZero_iff_eval⟩

end Sparse

end Quadratize
