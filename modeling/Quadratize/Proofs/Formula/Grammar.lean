import Quadratize.Formula.Expr

/-!
# The grammar of formulas

A formula is derived from sums, terms and factors.  The reader follows a derivation whatever sums
are open around it, so it finds the tree of every formula that has one.
-/

namespace Quadratize.Formula

/-- What a part of a formula is. -/
inductive Category
  | factor
  | term
  | sum
deriving DecidableEq

/-- The grammar: how a list of tokens makes up a part of a formula, and the tree of that part. -/
inductive Derives : Category → List Token → Expr → Prop
  | number (digits : List Char) : Derives .factor [.number digits] (.number digits)
  | wire (digits : List Char) : Derives .factor [.wire digits] (.wire digits)
  | parens {ts : List Token} {e : Expr} (h : Derives .sum ts e) :
    Derives .factor (.opening :: (ts ++ [.closing])) e
  | factor {ts : List Token} {e : Expr} (h : Derives .factor ts e) : Derives .term ts e
  | mul {ts us : List Token} {a b : Expr} (ha : Derives .term ts a) (hb : Derives .factor us b) :
    Derives .term (ts ++ .times :: us) (.mul a b)
  | term {ts : List Token} {e : Expr} (h : Derives .term ts e) : Derives .sum ts e
  | neg {ts : List Token} {e : Expr} (h : Derives .term ts e) : Derives .sum (.minus :: ts) (.neg e)
  | add {ts us : List Token} {a b : Expr} (ha : Derives .sum ts a) (hb : Derives .term us b) :
    Derives .sum (ts ++ .plus :: us) (.add a b)
  | sub {ts us : List Token} {a b : Expr} (ha : Derives .sum ts a) (hb : Derives .term us b) :
    Derives .sum (ts ++ .minus :: us) (.sub a b)

/-- The reader takes the tokens for a part of a formula with the given tree: it ends with a product
that, put behind what stood in front of the part, gives the tree. -/
def Reads : Category → List Token → Expr → Prop
  | .factor, ts, e => ∀ outer level, ts.foldlM Reader.step (.factor outer level) =
      some (.product outer level.before (level.product e))
  | .term, ts, e => ∀ outer before, ts.foldlM Reader.step (.factor outer ⟨before, none⟩) =
      some (.product outer before e)
  | .sum, ts, e => ∀ outer, ∃ before p, before.close p = e ∧
      ts.foldlM Reader.step (.start outer) = some (.product outer before p)

namespace Derives

variable {k : Category} {ts : List Token} {e : Expr}

/-- Only a sum can start with a sign. -/
theorem exists_eq_cons (h : Derives k ts e) (hk : k ≠ .sum) :
    ∃ t us, ts = t :: us ∧ t ≠ .minus := by
  induction h with
  | number digits => exact ⟨_, _, rfl, nofun⟩
  | wire digits => exact ⟨_, _, rfl, nofun⟩
  | parens h => exact ⟨_, _, rfl, nofun⟩
  | factor h ih => exact ih nofun
  | mul ha hb iha =>
    obtain ⟨t, us, rfl, ht⟩ := iha nofun
    exact ⟨t, _, rfl, ht⟩
  | term => exact absurd rfl hk
  | neg => exact absurd rfl hk
  | add => exact absurd rfl hk
  | sub => exact absurd rfl hk

/-- A term at the start of a sum is read as after an empty start. -/
theorem start_eq (h : Derives .term ts e) (outer : List Level) :
    ts.foldlM Reader.step (.start outer) =
      ts.foldlM Reader.step (.factor outer ⟨.nothing, none⟩) := by
  obtain ⟨t, us, rfl, ht⟩ := h.exists_eq_cons nofun
  rw [List.foldlM_cons, List.foldlM_cons]
  cases t with
  | minus => exact absurd rfl ht
  | _ => rfl

/-- The reader follows a derivation. -/
theorem reads (h : Derives k ts e) : Reads k ts e := by
  induction h with
  | number digits =>
    intro outer level
    rfl
  | wire digits =>
    intro outer level
    rfl
  | parens h ih =>
    intro outer level
    obtain ⟨before, p, rfl, hrun⟩ := ih (level :: outer)
    have hopen : Reader.step (.factor outer level) .opening = some (.start (level :: outer)) := rfl
    rw [List.foldlM_cons, hopen, Option.bind_eq_bind, Option.bind_some, List.foldlM_append, hrun]
    rfl
  | factor h ih =>
    intro outer before
    exact ih outer ⟨before, none⟩
  | mul ha hb iha ihb =>
    intro outer before
    rw [List.foldlM_append, iha outer before, Option.bind_eq_bind, Option.bind_some,
      List.foldlM_cons]
    exact ihb outer ⟨before, some _⟩
  | term h ih =>
    intro outer
    exact ⟨.nothing, _, rfl, (h.start_eq outer).trans (ih outer .nothing)⟩
  | neg h ih =>
    intro outer
    exact ⟨.minus, _, rfl, ih outer .minus⟩
  | add ha hb iha ihb =>
    intro outer
    obtain ⟨before, p, rfl, hrun⟩ := iha outer
    refine ⟨.sumPlus (before.close p), _, rfl, ?_⟩
    rw [List.foldlM_append, hrun, Option.bind_eq_bind, Option.bind_some, List.foldlM_cons]
    exact ihb outer (.sumPlus (before.close p))
  | sub ha hb iha ihb =>
    intro outer
    obtain ⟨before, p, rfl, hrun⟩ := iha outer
    refine ⟨.sumMinus (before.close p), _, rfl, ?_⟩
    rw [List.foldlM_append, hrun, Option.bind_eq_bind, Option.bind_some, List.foldlM_cons]
    exact ihb outer (.sumMinus (before.close p))

/-- The tree of a sum is found. -/
theorem ofTokens? (h : Derives .sum ts e) : Expr.ofTokens? ts = some e := by
  obtain ⟨before, p, rfl, hrun⟩ := h.reads []
  rw [Expr.ofTokens?, hrun]
  rfl

end Derives

end Quadratize.Formula
