import Quadratize.Proofs.Except
import Quadratize.Proofs.Form.Eval

/-!
# Partial evaluation

Where some wires have no value, a form has a value exactly if all of its wires do, also those that
do not matter for the value.
-/

namespace Quadratize

variable {ε : Type}

theorem Sparse.exists_tryEval_ok {κ : Type} [Key κ] {r : κ → Except ε Scalar} {s : Sparse κ} :
    (∃ a, s.tryEval r = .ok a) ↔ ∀ k ∈ s.keys, ∃ b, r k = .ok b := by
  rw [tryEval, keys]
  induction s.terms with
  | nil => exact ⟨fun _ ↦ nofun, fun _ ↦ ⟨0, rfl⟩⟩
  | cons t rest ih => rw [tryEvalTerms, exists_bind₂_ok, ih, List.map_cons, List.forall_mem_cons]

theorem Affine.exists_tryEval_ok {κ : Type} [Key κ] {r : κ → Except ε Scalar} {a : Affine κ} :
    (∃ b, tryEval r a = .ok b) ↔ ∀ k ∈ vars a, ∃ b, r k = .ok b := by
  rw [tryEval, Sparse.exists_tryEval_ok]
  refine ⟨fun h k hk ↦ h (some k) (mem_vars.mp hk), fun h k hk ↦ ?_⟩
  cases k with
  | none => exact ⟨1, rfl⟩
  | some k => exact h k (mem_vars.mpr hk)

variable {r : Wire → Except ε Scalar}

theorem Product.exists_tryEval_ok {p : Product} :
    (∃ a, p.tryEval r = .ok a) ↔ ∀ w ∈ p.wires, ∃ b, r w = .ok b := by
  rw [tryEval, exists_bind₂_ok, Affine.exists_tryEval_ok, Affine.exists_tryEval_ok, wires,
    List.forall_mem_append]

theorem QuadForm.exists_tryEval_ok {f : QuadForm} :
    (∃ a, f.tryEval r = .ok a) ↔ ∀ w ∈ f.wires, ∃ b, r w = .ok b := by
  simp only [tryEval, mem_wires]
  induction f.terms with
  | nil =>
    constructor
    · rintro - w ⟨p, hp, -⟩
      exact absurd hp List.not_mem_nil
    · exact fun _ ↦ ⟨0, rfl⟩
  | cons p ps ih =>
    rw [tryEvalTerms, exists_bind₂_ok, Product.exists_tryEval_ok, ih]
    simp only [List.exists_mem_cons_iff, or_imp, forall_and]

end Quadratize
