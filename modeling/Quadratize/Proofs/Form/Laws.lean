import Quadratize.Proofs.Form.Partial

/-!
# Laws of evaluation

Evaluation takes the operations on affine sums and on forms to those on values, whatever terms an
operation merges, cancels or drops.  Renaming and leaving out variables change the assignment in the
place of the sum.  A partial evaluation gives the value of every assignment that extends it, and it
fails as the first variable that has no value.
-/

namespace Quadratize

variable {α β ε : Type}

/-! ## First failures -/

/-- The failure at the first element of a list for which there is one. -/
def FirstFailure (r : α → Except ε β) (l : List α) (e : ε) : Prop :=
  ∃ before x after, l = before ++ x :: after ∧ (∀ y ∈ before, ∃ b, r y = .ok b) ∧ r x = .error e

section

variable {r : α → Except ε β} {l m : List α} {x : α} {e : ε}

theorem not_firstFailure_nil : ¬FirstFailure r [] e := by
  rintro ⟨before, x, after, h, -, -⟩
  exact List.append_ne_nil_of_right_ne_nil before (List.cons_ne_nil x after) h.symm

theorem firstFailure_cons :
    FirstFailure r (x :: l) e ↔ r x = .error e ∨ (∃ b, r x = .ok b) ∧ FirstFailure r l e := by
  constructor
  · rintro ⟨before, y, after, h, hbefore, hy⟩
    cases before with
    | nil =>
      obtain ⟨rfl, -⟩ := List.cons.inj h
      exact .inl hy
    | cons z before =>
      obtain ⟨rfl, rfl⟩ := List.cons.inj h
      obtain ⟨hx, hbefore⟩ := List.forall_mem_cons.mp hbefore
      exact .inr ⟨hx, before, y, after, rfl, hbefore, hy⟩
  · rintro (hx | ⟨hx, before, y, after, rfl, hbefore, hy⟩)
    · exact ⟨[], x, l, rfl, nofun, hx⟩
    · exact ⟨x :: before, y, after, rfl, List.forall_mem_cons.mpr ⟨hx, hbefore⟩, hy⟩

theorem firstFailure_append : FirstFailure r (l ++ m) e ↔
    FirstFailure r l e ∨ (∀ x ∈ l, ∃ b, r x = .ok b) ∧ FirstFailure r m e := by
  induction l with
  | nil =>
    rw [List.nil_append, or_iff_right not_firstFailure_nil]
    exact (and_iff_right (List.forall_mem_nil _)).symm
  | cons x l ih =>
    rw [List.cons_append, firstFailure_cons, ih, firstFailure_cons, List.forall_mem_cons, or_assoc,
      and_or_left, and_assoc]

/-- In a list with ascending ranks it is the failure at the element with the smallest rank. -/
theorem firstFailure_iff_smallest [Key α] (h : l.Pairwise fun x y ↦ Key.rank x < Key.rank y) :
    FirstFailure r l e ↔ ∃ x ∈ l, r x = .error e ∧
      ∀ y ∈ l, Key.rank y < Key.rank x → ∃ b, r y = .ok b := by
  constructor
  · rintro ⟨before, x, after, rfl, hbefore, hx⟩
    refine ⟨x, List.mem_append_right _ List.mem_cons_self, hx, fun y hy hlt ↦ ?_⟩
    obtain ⟨-, hlater, -⟩ := List.pairwise_append.mp h
    rcases List.mem_append.mp hy with hy | hy
    · exact hbefore y hy
    · rcases List.mem_cons.mp hy with rfl | hy
      · exact absurd hlt (lt_irrefl _)
      · exact absurd hlt ((List.pairwise_cons.mp hlater).1 y hy).asymm
  · rintro ⟨x, hmem, hx, hsmaller⟩
    obtain ⟨before, after, rfl⟩ := List.append_of_mem hmem
    obtain ⟨-, -, hbefore⟩ := List.pairwise_append.mp h
    refine ⟨before, x, after, rfl, fun y hy ↦ ?_, hx⟩
    exact hsmaller y (List.mem_append_left _ hy) (hbefore y hy x List.mem_cons_self)

/-- Values that can be given are those of an assignment. -/
theorem exists_assignment [Inhabited β] (h : ∀ x ∈ l, ∃ b, r x = .ok b) :
    ∃ q : α → β, ∀ x ∈ l, r x = .ok (q x) := by
  refine ⟨fun x ↦ (r x).toOption.getD default, fun x hx ↦ ?_⟩
  obtain ⟨b, hb⟩ := h x hx
  change r x = .ok ((r x).toOption.getD default)
  rw [hb]
  rfl

end

/-- A result that is the value at every assignment that gives the values of a list, and that needs
all of them, is the value at such an assignment. -/
theorem eq_ok_iff_exists_assignment {r : α → Except ε Scalar} {l : List α}
    {result : Except ε Scalar} {value : (α → Scalar) → Scalar} {a : Scalar}
    (hok : ∀ q : α → Scalar, (∀ x ∈ l, r x = .ok (q x)) → result = .ok (value q))
    (hall : (∃ b, result = .ok b) ↔ ∀ x ∈ l, ∃ b, r x = .ok b) :
    result = .ok a ↔ ∃ q, (∀ x ∈ l, r x = .ok (q x)) ∧ value q = a := by
  constructor
  · intro h
    obtain ⟨q, hq⟩ := exists_assignment (hall.mp ⟨a, h⟩)
    exact ⟨q, hq, Except.ok.inj ((hok q hq).symm.trans h)⟩
  · rintro ⟨q, hq, rfl⟩
    exact hok q hq

/-! ## Affine sums -/

theorem Sparse.tryEval_eq_error {κ : Type} [Key κ] {r : κ → Except ε Scalar} {s : Sparse κ}
    {e : ε} : s.tryEval r = .error e ↔ FirstFailure r s.keys e := by
  rw [tryEval, keys]
  induction s.terms with
  | nil => exact iff_of_false (fun h ↦ by cases h) not_firstFailure_nil
  | cons t rest ih => rw [tryEvalTerms, bind₂_eq_error, ih, List.map_cons, firstFailure_cons]

namespace Affine

variable {κ : Type} [Key κ] {v : κ → Except ε Scalar} {a : Affine κ}

theorem vars_eq (a : Affine κ) : vars a = a.keys.filterMap id := by
  rw [vars, Sparse.keys, List.filterMap_map]
  rfl

theorem pairwise_vars (a : Affine κ) :
    (vars a).Pairwise fun x y ↦ Key.rank x < Key.rank y := by
  refine a.ascending.filterMap _ fun s t hlt x hx y hy ↦ ?_
  rw [hx, hy] at hlt
  exact Nat.lt_of_succ_lt_succ hlt

omit [Key κ] in
/-- The constant term has a value everywhere. -/
theorem firstFailure_tryAtKey {ks : List (Option κ)} {e : ε} :
    FirstFailure (tryAtKey v) ks e ↔ FirstFailure v (ks.filterMap id) e := by
  induction ks with
  | nil => exact iff_of_false not_firstFailure_nil not_firstFailure_nil
  | cons k ks ih =>
    rw [firstFailure_cons, ih]
    cases k with
    | none =>
      refine ⟨fun h ↦ ?_, fun h ↦ .inr ⟨⟨1, rfl⟩, h⟩⟩
      exact (h.resolve_left nofun).2
    | some x =>
      rw [List.filterMap_cons_some (f := id) rfl, firstFailure_cons]
      rfl

theorem tryEval_eq_error {e : ε} : tryEval v a = .error e ↔ FirstFailure v (vars a) e := by
  rw [tryEval, Sparse.tryEval_eq_error, firstFailure_tryAtKey, vars_eq]

theorem eval_neg (r : κ → Scalar) (a : Affine κ) : eval r (-a) = -eval r a :=
  Sparse.eval_neg _ a

/-- To leave out a variable is to give it the value zero. -/
theorem eval_erase_eq [DecidableEq κ] (r : κ → Scalar) (x : κ) (a : Affine κ) :
    eval r (a.erase (some x)) = eval (Function.update r x 0) a := by
  calc eval r (a.erase (some x))
    _ = eval (Function.update r x 0) (a.erase (some x)) :=
      eval_congr fun _ hk ↦ (Function.update_of_ne (mem_vars_erase.mp hk).2 _ _).symm
    _ = eval (Function.update r x 0) a := eval_erase (Function.update_self ..) a

end Affine

/-! ## Forms -/

namespace QuadForm

variable {v : Wire → Except ε Scalar} {f : QuadForm}

theorem tryEval_eq_error {e : ε} :
    f.tryEval v = .error e ↔ FirstFailure v (f.terms.flatMap Product.wires) e := by
  rw [tryEval]
  induction f.terms with
  | nil => exact iff_of_false (fun h ↦ by cases h) not_firstFailure_nil
  | cons p ps ih =>
    rw [tryEvalTerms, bind₂_eq_error, ih, List.flatMap_cons, firstFailure_append,
      Product.exists_tryEval_ok, Product.tryEval, bind₂_eq_error, Affine.tryEval_eq_error,
      Affine.exists_tryEval_ok, Affine.tryEval_eq_error, ← firstFailure_append]
    rfl

/-- To put zero in the place of a wire is to give it the value zero. -/
theorem eval_substituteZero_eq (r : Wire → Scalar) (w : Wire) (f : QuadForm) :
    (f.substituteZero w).eval r = f.eval (Function.update r w 0) := by
  calc (f.substituteZero w).eval r
    _ = (f.substituteZero w).eval (Function.update r w 0) := eval_congr fun _ hv ↦
      (Function.update_of_ne (mem_wires_substituteZero hv).2 _ _).symm
    _ = f.eval (Function.update r w 0) := eval_substituteZero (Function.update_self ..) f

end QuadForm

/-! ## The laws -/

/-- Evaluation of affine sums takes sums, differences, negatives and multiples to those of values.
Renaming variables, also to the same one, composes the assignment with the renaming, and leaving a
variable out gives it the value zero.  Partial evaluation succeeds exactly with the values at
assignments that extend the partial one, and otherwise fails as the smallest variable without a
value.  Renaming, substitution of zero and partial evaluation of forms obey the same laws; here the
failure is that of the first wire in the order of the terms, the left sides first. -/
theorem evaluation_laws {κ ι ε : Type} [Key κ] [DecidableEq κ] [Key ι] (a b : Affine κ)
    (f : QuadForm) :
    (∀ r : κ → Scalar, Affine.eval r (a + b) = Affine.eval r a + Affine.eval r b ∧
      Affine.eval r (a - b) = Affine.eval r a - Affine.eval r b ∧
      Affine.eval r (-a) = -Affine.eval r a ∧
      (∀ k, Affine.eval r (a.scale k) = Affine.eval r a * k) ∧
      ∀ x, Affine.eval r (a.erase (some x)) = Affine.eval (Function.update r x 0) a) ∧
    (∀ (r : ι → Scalar) (g : κ → ι), Affine.eval r (Affine.rename g a) = Affine.eval (r ∘ g) a) ∧
    (∀ v : κ → Except ε Scalar,
      (∀ s, Affine.tryEval v a = .ok s ↔
        ∃ q, (∀ x ∈ Affine.vars a, v x = .ok (q x)) ∧ Affine.eval q a = s) ∧
      ∀ e, Affine.tryEval v a = .error e ↔ ∃ x ∈ Affine.vars a, v x = .error e ∧
        ∀ y ∈ Affine.vars a, Key.rank y < Key.rank x → ∃ s, v y = .ok s) ∧
    (∀ r : Wire → Scalar, (∀ g, (f.rename g).eval r = f.eval (r ∘ g)) ∧
      ∀ w, (f.substituteZero w).eval r = f.eval (Function.update r w 0)) ∧
    ∀ v : Wire → Except ε Scalar,
      (∀ s, f.tryEval v = .ok s ↔ ∃ q, (∀ w ∈ f.wires, v w = .ok (q w)) ∧ f.eval q = s) ∧
      ∀ e, f.tryEval v = .error e ↔ ∃ before w after,
        f.terms.flatMap (fun p ↦ Affine.vars p.lhs ++ Affine.vars p.rhs) =
          before ++ w :: after ∧
        (∀ y ∈ before, ∃ s, v y = .ok s) ∧ v w = .error e := by
  refine ⟨fun r ↦ ⟨Affine.eval_add r a b, Affine.eval_sub r a b, Affine.eval_neg r a,
      Affine.eval_scale r a, fun x ↦ Affine.eval_erase_eq r x a⟩,
    fun r g ↦ Affine.eval_rename r g a, fun v ↦ ⟨fun s ↦ ?_, fun e ↦ ?_⟩,
    fun r ↦ ⟨fun g ↦ QuadForm.eval_rename r g f, fun w ↦ QuadForm.eval_substituteZero_eq r w f⟩,
    fun v ↦ ⟨fun s ↦ ?_, fun e ↦ QuadForm.tryEval_eq_error⟩⟩
  · exact eq_ok_iff_exists_assignment (fun _ ↦ Affine.tryEval_eq_ok) Affine.exists_tryEval_ok
  · exact Affine.tryEval_eq_error.trans (firstFailure_iff_smallest (Affine.pairwise_vars a))
  · exact eq_ok_iff_exists_assignment (fun _ ↦ QuadForm.tryEval_eq_ok) QuadForm.exists_tryEval_ok

end Quadratize
