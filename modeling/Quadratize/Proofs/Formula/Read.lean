import Quadratize.Form.Render
import Quadratize.Proofs.Form.Standard
import Quadratize.Proofs.Formula.Grammar
import Quadratize.Proofs.Formula.Token
import Quadratize.Proofs.Text.Lines

/-!
# Texts that denote polynomials

A text denotes a polynomial as a part of a formula if its tokens are derived as that part and the
tree has that polynomial.  Such texts are put together as the grammar says, and a text that denotes
a sum is read as the form of its polynomial.
-/

namespace Quadratize.Formula

open Text

/-- The text is a part of a formula with the given polynomial. -/
structure Denotes (k : Category) (cs : List Char) (p : Poly) : Prop where
  neat : IsNeat cs
  derives : ∃ ts e, Spells cs ts ∧ Derives k ts e ∧ Poly.ofExpr e = .ok p

namespace Denotes

variable {k : Category} {cs ds sep : List Char} {p q r : Poly}

/-! ## Factors -/

theorem number (n : Nat) :
    Denotes .factor (decimal n) (.ofAffine (Affine.constant (Scalar.reduce n))) where
  neat := .of_forall (decimal_ne_nil n) fun _ hc ↦ isBlank_of_isDigit (isDigit_of_mem_decimal hc)
  derives := by
    refine ⟨_, _, Spells.number (isRun_decimal n), .number _, ?_⟩
    rw [Poly.ofExpr, readNumeral?_decimal]
    rfl

theorem wire (w : Wire) : Denotes .factor w.placeholder (.ofAffine (Affine.var w)) where
  neat := by
    refine .of_forall (List.cons_ne_nil _ _) fun c hc ↦ ?_
    rcases List.mem_cons.mp hc with rfl | hc
    · rfl
    · rcases List.mem_append.mp hc with hc | hc
      · exact isBlank_of_isDigit (Wire.isDigit_of_mem_render hc)
      · obtain rfl := List.mem_singleton.mp hc
        rfl
  derives := by
    refine ⟨_, _, Spells.wire (isRun_decimal w.id), .wire _, ?_⟩
    rw [Poly.ofExpr, Wire.read?_render]

theorem parens (h : Denotes .sum cs p) : Denotes .factor (Affine.parens cs) p where
  neat := (IsNeat.singleton '(' rfl).append_append cs (.singleton ')' rfl)
  derives := by
    obtain ⟨ts, e, hts, he, hp⟩ := h.derives
    exact ⟨_, _, hts.parens, he.parens, hp⟩

/-! ## Terms -/

theorem term (h : Denotes .factor cs p) : Denotes .term cs p where
  neat := h.neat
  derives := by
    obtain ⟨ts, e, hts, he, hp⟩ := h.derives
    exact ⟨ts, e, hts, he.factor, hp⟩

theorem times (hsep : Separates sep .times) (hcs : Denotes .term cs p) (hds : Denotes .factor ds q)
    (h : p.mul? q = some r) : Denotes .term (cs ++ sep ++ ds) r where
  neat := hcs.neat.append_append sep hds.neat
  derives := by
    obtain ⟨ts, a, hts, ha, hp⟩ := hcs.derives
    obtain ⟨us, b, hus, hb, hq⟩ := hds.derives
    refine ⟨_, _, hts.between hsep hus, ha.mul hb, ?_⟩
    refine bind_eq_ok.mpr ⟨p, hp, bind_eq_ok.mpr ⟨q, hq, ?_⟩⟩
    rw [h]
    rfl

/-! ## Sums -/

theorem sum (h : Denotes .term cs p) : Denotes .sum cs p where
  neat := h.neat
  derives := by
    obtain ⟨ts, e, hts, he, hp⟩ := h.derives
    exact ⟨ts, e, hts, he.term, hp⟩

theorem neg (h : Denotes .term cs p) : Denotes .sum ('-' :: cs) p.neg where
  neat := (IsNeat.singleton '-' rfl).append_append [] h.neat
  derives := by
    obtain ⟨ts, e, hts, he, hp⟩ := h.derives
    exact ⟨_, _, hts.behind separates_minus, he.neg, bind_eq_ok.mpr ⟨p, hp, rfl⟩⟩

theorem plus (hcs : Denotes .sum cs p) (hds : Denotes .term ds q) :
    Denotes .sum (cs ++ " + ".toList ++ ds) (p.add q) where
  neat := hcs.neat.append_append _ hds.neat
  derives := by
    obtain ⟨ts, a, hts, ha, hp⟩ := hcs.derives
    obtain ⟨us, b, hus, hb, hq⟩ := hds.derives
    exact ⟨_, _, hts.between separates_plus.spaced hus, ha.add hb,
      bind_eq_ok.mpr ⟨p, hp, bind_eq_ok.mpr ⟨q, hq, rfl⟩⟩⟩

theorem minus (hcs : Denotes .sum cs p) (hds : Denotes .term ds q) :
    Denotes .sum (cs ++ " - ".toList ++ ds) (p.add q.neg) where
  neat := hcs.neat.append_append _ hds.neat
  derives := by
    obtain ⟨ts, a, hts, ha, hp⟩ := hcs.derives
    obtain ⟨us, b, hus, hb, hq⟩ := hds.derives
    exact ⟨_, _, hts.between separates_minus.spaced hus, ha.sub hb,
      bind_eq_ok.mpr ⟨p, hp, bind_eq_ok.mpr ⟨q, hq, rfl⟩⟩⟩

/-! ## What is read -/

/-- A text that denotes a sum is read as the form of its polynomial. -/
theorem read (h : Denotes .sum cs p) : QuadForm.read cs = .ok p.toForm := by
  obtain ⟨ts, e, hts, he, hp⟩ := h.derives
  have htree : Expr.read? cs = some e := by
    rw [Expr.read?, hts.tokens?_eq, Option.bind_some, he.ofTokens?]
  rw [QuadForm.read, htree]
  dsimp only
  rw [hp]

/-- A formula stands on one line, without blanks around it. -/
theorem isNote (h : Denotes k cs p) : IsNote cs := by
  obtain ⟨ts, e, hts, -⟩ := h.derives
  exact
    { noFeed := not_mem_of_tokens? rfl rfl (by decide) rfl hts.tokens?_eq
      noReturn := not_mem_of_tokens? rfl rfl (by decide) rfl hts.tokens?_eq
      trimmed := h.neat.trim_eq }

/-- Only a sum can start with a minus sign. -/
theorem head?_ne_minus (h : Denotes k cs p) (hk : k ≠ .sum) : cs.head? ≠ some '-' := by
  intro hhead
  obtain ⟨ts, e, hts, he, -⟩ := h.derives
  obtain ⟨t, us, rfl, ht⟩ := he.exists_eq_cons hk
  obtain ⟨tail, rfl⟩ := List.head?_eq_some_iff.mp hhead
  have htokens := hts.tokens?_eq
  rw [← List.singleton_append, separates_minus.tokens?_append tail] at htokens
  obtain ⟨vs, -, hvs⟩ := Option.map_eq_some_iff.mp htokens
  exact ht (List.cons.inj hvs).1.symm

end Denotes

end Quadratize.Formula
