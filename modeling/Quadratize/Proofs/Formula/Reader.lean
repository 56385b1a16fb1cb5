import Quadratize.Proofs.Formula.Grammar

/-!
# What a reader has read

The state of a reader tells which tokens it has read: the sums around the open parentheses, what
stands in front of the current term, and the product so far.  A step adds its token, so an
expression that is found at the end has a derivation.
-/

namespace Quadratize.Formula

/-- The tokens in front of a term. -/
inductive Before.Spans : Before → List Token → Prop
  | nothing : Spans .nothing []
  | minus : Spans .minus [.minus]
  | sumPlus {ts : List Token} {s : Expr} (h : Derives .sum ts s) :
    Spans (.sumPlus s) (ts ++ [.plus])
  | sumMinus {ts : List Token} {s : Expr} (h : Derives .sum ts s) :
    Spans (.sumMinus s) (ts ++ [.minus])

/-- The tokens of a sum in front of a factor. -/
inductive Level.Spans : Level → List Token → Prop
  | first {before : Before} {ts : List Token} (h : before.Spans ts) : Spans ⟨before, none⟩ ts
  | next {before : Before} {ts us : List Token} {p : Expr} (h : before.Spans ts)
    (hp : Derives .term us p) : Spans ⟨before, some p⟩ (ts ++ us ++ [.times])

/-- The tokens up to the innermost open parenthesis. -/
inductive SpansOuter : List Level → List Token → Prop
  | nil : SpansOuter [] []
  | cons {outer : List Level} {level : Level} {ts us : List Token} (h : SpansOuter outer ts)
    (hl : level.Spans us) : SpansOuter (level :: outer) (ts ++ us ++ [.opening])

/-- The tokens that have been read in a state. -/
inductive Reader.Spans : Reader → List Token → Prop
  | start {outer : List Level} {ts : List Token} (h : SpansOuter outer ts) : Spans (.start outer) ts
  | factor {outer : List Level} {level : Level} {ts us : List Token} (h : SpansOuter outer ts)
    (hl : level.Spans us) : Spans (.factor outer level) (ts ++ us)
  | product {outer : List Level} {before : Before} {p : Expr} {ts us vs : List Token}
    (h : SpansOuter outer ts) (hb : before.Spans us) (hp : Derives .term vs p) :
    Spans (.product outer before p) (ts ++ us ++ vs)

variable {ts us vs : List Token} {e : Expr} {before : Before} {level : Level} {outer : List Level}
  {t : Token}

/-- A term closes the sum that it ends. -/
theorem Before.Spans.close (hb : before.Spans ts) (he : Derives .term us e) :
    Derives .sum (ts ++ us) (before.close e) := by
  cases hb with
  | nothing => exact he.term
  | minus => exact he.neg
  | sumPlus hs =>
    rw [List.append_assoc]
    exact hs.add he
  | sumMinus hs =>
    rw [List.append_assoc]
    exact hs.sub he

/-- A factor ends a product, with what stands in front of its term. -/
theorem Level.Spans.product (hl : level.Spans ts) (he : Derives .factor us e) :
    ∃ vs ws, ts ++ us = vs ++ ws ∧ level.before.Spans vs ∧ Derives .term ws (level.product e) := by
  cases hl with
  | first hb => exact ⟨_, _, rfl, hb, he.factor⟩
  | next hb hp =>
    refine ⟨_, _, ?_, hb, hp.mul he⟩
    simp

namespace Reader

variable {r r' : Reader}

/-- A factor leads to the state behind its product. -/
theorem spans_product (h : SpansOuter outer ts) (hl : level.Spans us) (he : Derives .factor vs e) :
    (Reader.product outer level.before (level.product e)).Spans (ts ++ us ++ vs) := by
  obtain ⟨ws, xs, heq, hb, hp⟩ := hl.product he
  rw [List.append_assoc, heq, ← List.append_assoc]
  exact .product h hb hp

theorem spans_readFactor (h : SpansOuter outer ts) (hl : level.Spans us)
    (hr : readFactor outer level t = some r) : r.Spans (ts ++ us ++ [t]) := by
  cases t with
  | number ds =>
    cases hr
    exact spans_product h hl (.number ds)
  | wire ds =>
    cases hr
    exact spans_product h hl (.wire ds)
  | opening =>
    cases hr
    exact .start (.cons h hl)
  | plus => cases hr
  | minus => cases hr
  | times => cases hr
  | closing => cases hr

/-- A sum that starts without a sign starts with a factor. -/
theorem step_start (ht : t ≠ .minus) :
    (Reader.start outer).step t = readFactor outer ⟨.nothing, none⟩ t := by
  cases t with
  | minus => exact absurd rfl ht
  | _ => rfl

/-- A step reads its token. -/
theorem Spans.step (h : r.Spans ts) (hr : r.step t = some r') : r'.Spans (ts ++ [t]) := by
  cases h with
  | start h =>
    by_cases ht : t = .minus
    · subst ht
      cases hr
      exact .factor h (.first .minus)
    · rw [step_start ht] at hr
      have hspans := spans_readFactor h (.first .nothing) hr
      rwa [List.append_nil] at hspans
  | factor h hl => exact spans_readFactor h hl hr
  | product h hb hp =>
    cases t with
    | times =>
      cases hr
      have hspans := Spans.factor h (.next hb hp)
      rwa [← List.append_assoc, ← List.append_assoc] at hspans
    | plus =>
      cases hr
      have hspans := Spans.factor h (.first (.sumPlus (hb.close hp)))
      rwa [← List.append_assoc, ← List.append_assoc] at hspans
    | minus =>
      cases hr
      have hspans := Spans.factor h (.first (.sumMinus (hb.close hp)))
      rwa [← List.append_assoc, ← List.append_assoc] at hspans
    | closing =>
      cases h with
      | nil => cases hr
      | cons h hl =>
        cases hr
        have hspans := spans_product h hl (hb.close hp).parens
        simpa using hspans
    | number | wire | opening =>
      cases h with
      | nil => cases hr
      | cons => cases hr

theorem Spans.run (h : r.Spans ts) (hr : us.foldlM Reader.step r = some r') :
    r'.Spans (ts ++ us) := by
  induction us generalizing r ts with
  | nil =>
    cases hr
    rwa [List.append_nil]
  | cons t us ih =>
    rw [List.foldlM_cons] at hr
    obtain ⟨r₁, hstep, hrest⟩ := Option.bind_eq_some_iff.mp hr
    rw [List.append_cons]
    exact ih (h.step hstep) hrest

/-- At the end the tokens are a sum with the tree that is found. -/
theorem Spans.derives (h : r.Spans ts) (he : r.finish = some e) : Derives .sum ts e := by
  cases h with
  | start => cases he
  | factor => cases he
  | product h hb hp =>
    cases h with
    | nil =>
      cases he
      exact hb.close hp
    | cons => cases he

end Reader

/-- A tree is found exactly for the tokens that are derived as a sum with this tree. -/
theorem ofTokens?_eq_some_iff : Expr.ofTokens? ts = some e ↔ Derives .sum ts e := by
  refine ⟨fun h ↦ ?_, Derives.ofTokens?⟩
  obtain ⟨r, hrun, hfinish⟩ := Option.bind_eq_some_iff.mp h
  have hspans : r.Spans ([] ++ ts) := Reader.Spans.run (.start .nil) hrun
  exact hspans.derives hfinish

end Quadratize.Formula
