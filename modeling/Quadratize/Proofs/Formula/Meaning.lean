import Quadratize.Proofs.Formula.Phrase
import Quadratize.Proofs.Formula.Value

/-!
# The language that is read

Reading accepts formulas and nothing else, and the form that is read has the value of the formula.
Every formula of degree at most two is accepted, unless the number of a wire is out of range.
-/

namespace Quadratize

open Formula

/-- The leaves of a tree of the grammar hold runs of digits. -/
theorem Formula.Phrase.proper {k : Category} {cs : List Char} {e : Expr} (h : Phrase k cs e) :
    e.Proper := by
  induction h with
  | number h => exact h
  | wire h => exact h
  | parens _ _ _ ih => exact ih
  | factor _ ih => exact ih
  | mul _ _ _ iha ihb => exact ⟨iha, ihb⟩
  | term _ ih => exact ih
  | neg _ _ ih => exact ih
  | add _ _ _ iha ihb => exact ⟨iha, ihb⟩
  | sub _ _ _ iha ihb => exact ⟨iha, ihb⟩

theorem Formula.IsFormula.proper {text : List Char} {e : Expr} (h : IsFormula text e) :
    e.Proper := by
  obtain ⟨_, _, _, _, hphrase, _⟩ := h
  exact hphrase.proper

namespace QuadForm

variable {text : List Char} {f : QuadForm}

/-- A text is read by lowering its tree. -/
theorem read_eq_ok : read text = .ok f ↔
    ∃ e p, IsFormula text e ∧ Poly.ofExpr e = .ok p ∧ p.toForm = f := by
  constructor
  · intro h
    unfold read at h
    split at h
    · cases h
    · rename_i e he
      split at h
      · cases h
      · rename_i p hp
        exact ⟨e, p, read?_eq_some_iff.mp he, hp, Except.ok.inj h⟩
  · rintro ⟨e, p, he, hp, rfl⟩
    rw [read, read?_eq_some_iff.mpr he]
    dsimp only
    rw [hp]

/-- A text that is read is a formula, and its form has the value of its tree under every assignment
of scalars to the numbers of wires.  Conversely a formula of degree at most two is read if the
numbers of its wires are in range. -/
theorem read_follows_grammar (text : List Char) :
    (∀ f, read text = .ok f → (∃ e, IsFormula text e) ∧
      ∀ e, IsFormula text e → ∀ r : ℕ → Scalar, f.eval (fun w ↦ r w.id) = e.value r) ∧
    ∀ e, IsFormula text e → (∀ n ∈ e.wireNumbers, n < 2 ^ 32 - 1) → e.degree ≤ 2 →
      ∃ f, read text = .ok f := by
  constructor
  · intro f hread
    obtain ⟨e, p, he, hp, rfl⟩ := read_eq_ok.mp hread
    refine ⟨⟨e, he⟩, fun e' he' r ↦ ?_⟩
    -- The tree is found by reading, so there is no other.
    obtain rfl : e' = e := Option.some.inj (he'.read?.symm.trans he.read?)
    rw [Poly.eval_toForm, Poly.eval_ofExpr he.proper hp]
  · intro e he hwires hdegree
    obtain ⟨p, hp, -⟩ := Poly.exists_ofExpr he.proper hwires hdegree
    exact ⟨p.toForm, read_eq_ok.mpr ⟨e, p, he, hp, rfl⟩⟩

/-- A formula with nested parentheses, a sign and gaps. -/
def nestedText : List Char :=
  " -2 *(_1_\t- (3 -_2_) )* _03_ + 10*_4_*(7 - 5) ".toList

/-- The tree of the formula. -/
def nestedTree : Expr :=
  .add
    (.neg (.mul (.mul (.number ['2']) (.sub (.wire ['1']) (.sub (.number ['3']) (.wire ['2']))))
      (.wire ['0', '3'])))
    (.mul (.mul (.number ['1', '0']) (.wire ['4'])) (.sub (.number ['7']) (.number ['5'])))

theorem read_follows_grammar_nestedText :
    IsFormula nestedText nestedTree ∧ (∀ n ∈ nestedTree.wireNumbers, n < 2 ^ 32 - 1) ∧
      nestedTree.degree ≤ 2 ∧ ∃ f, read nestedText = .ok f ∧
        ∀ r : ℕ → Scalar, f.eval (fun w ↦ r w.id) = nestedTree.value r := by
  have hformula : IsFormula nestedText nestedTree := read?_eq_some_iff.mp (by decide +kernel)
  have hwires : ∀ n ∈ nestedTree.wireNumbers, n < 2 ^ 32 - 1 := by decide
  have hdegree : nestedTree.degree ≤ 2 := by decide
  obtain ⟨f, hf⟩ := (read_follows_grammar nestedText).2 nestedTree hformula hwires hdegree
  exact ⟨hformula, hwires, hdegree, f, hf,
    ((read_follows_grammar nestedText).1 f hf).2 nestedTree hformula⟩

end QuadForm

end Quadratize
