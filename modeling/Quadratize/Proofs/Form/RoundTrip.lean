import Quadratize.Proofs.Form.Render
import Quadratize.Proofs.Formula.Value
import Quadratize.Proofs.Wire

/-!
# Values of forms that are written and read

A form is read back as the form of the polynomial that it stands for.  That form has the same value,
and it is the same form if it has been read from a text.
-/

namespace Quadratize.QuadForm

/-- A form has the value of the polynomial that it stands for. -/
theorem eval_toPoly (r : Wire → Scalar) (f : QuadForm) : f.toPoly.eval r = f.eval r := by
  rw [Formula.Poly.eval, toPoly, eval_linearPart, add_comm]
  exact sum_asAffine? r f.terms

/-- The written form is read as a form with the same value under every assignment, and as the same
form if the form has been read from some text. -/
theorem read_render_eval (f : QuadForm) :
    (∃ g, read f.render = .ok g ∧ ∀ r, g.eval r = f.eval r) ∧
      ∀ text, read text = .ok f → read f.render = .ok f := by
  refine ⟨⟨_, read_render f, fun r ↦ ?_⟩, fun text hread ↦ ?_⟩
  · rw [Formula.Poly.eval_toForm, eval_toPoly]
  · have hform : f.toPoly.toForm = f := standard_of_read hread
    rw [read_render, hform]

/-- A formula whose products have signs, unit coefficients and constant factors. -/
def signedText : List Char :=
  "-_3_ * (2*_1_) - (5 - _2_)*(_2_ + 1)*3 + _4_*7 - 1*(_1_ + _2_) - 6".toList

theorem read_render_eval_signedText : ∃ f, read signedText = .ok f ∧ read f.render = .ok f ∧
    ∃ g, read f.render = .ok g ∧ ∀ r, g.eval r = f.eval r := by
  obtain ⟨f, hread, -⟩ := exists_ok_of_any (x := read signedText) (P := fun _ ↦ true)
    (by decide +kernel)
  exact ⟨f, hread, (read_render_eval f).2 signedText hread, (read_render_eval f).1⟩

/-- A form with a constant side need not be read back as the same form. -/
example : read (product (Affine.constant 2) (Affine.var 1)).render =
    .ok (linear (Affine.monomial 1 2)) := by
  decide +kernel

end Quadratize.QuadForm
