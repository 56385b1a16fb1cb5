import Quadratize.Formula.Token

/-!
# Expressions

A formula is a sum of products of numbers, wires and parenthesised formulas; only the first term
of a sum may have a minus sign. Sums and products associate to the left.
-/

namespace Quadratize.Formula

/-- The tree of a formula. -/
inductive Expr
  | number (digits : List Char)
  | wire (digits : List Char)
  | neg (e : Expr)
  | add (a b : Expr)
  | sub (a b : Expr)
  | mul (a b : Expr)
deriving DecidableEq

/-- What stands in front of a term: nothing, a sign, or a sum and an operator. -/
inductive Before
  | nothing
  | minus
  | sumPlus (sum : Expr)
  | sumMinus (sum : Expr)
deriving DecidableEq

/-- The sum that ends with the given term. -/
def Before.close : Before → Expr → Expr
  | nothing, e => e
  | minus, e => .neg e
  | sumPlus s, e => .add s e
  | sumMinus s, e => .sub s e

/-- A sum that is being read: what stands in front of its last term, and the factors of that term
that are followed by a times sign. -/
structure Level where
  before : Before
  factors : Option Expr
deriving DecidableEq

/-- The product that ends with the given factor. -/
def Level.product (l : Level) (e : Expr) : Expr :=
  match l.factors with
  | none => e
  | some p => .mul p e

/-- The state of a reader, with the sums around open parentheses, the innermost first. -/
inductive Reader
  /-- A sum is about to start. -/
  | start (outer : List Level)
  /-- A factor is expected. -/
  | factor (outer : List Level) (level : Level)
  /-- A product has been read. -/
  | product (outer : List Level) (before : Before) (product : Expr)
deriving DecidableEq

namespace Reader

/-- Reads a token where a factor is expected. -/
def readFactor (outer : List Level) (level : Level) : Token → Option Reader
  | .number digits => some (.product outer level.before (level.product (.number digits)))
  | .wire digits => some (.product outer level.before (level.product (.wire digits)))
  | .opening => some (.start (level :: outer))
  | _ => none

/-- Reads a token. -/
def step : Reader → Token → Option Reader
  | start outer, .minus => some (factor outer ⟨.minus, none⟩)
  | start outer, t => readFactor outer ⟨.nothing, none⟩ t
  | factor outer level, t => readFactor outer level t
  | product outer before p, .times => some (factor outer ⟨before, some p⟩)
  | product outer before p, .plus => some (factor outer ⟨.sumPlus (before.close p), none⟩)
  | product outer before p, .minus => some (factor outer ⟨.sumMinus (before.close p), none⟩)
  | product (level :: outer) before p, .closing =>
    some (product outer level.before (level.product (before.close p)))
  | product _ _ _, _ => none

/-- The expression at the end of the tokens. -/
def finish : Reader → Option Expr
  | product [] before p => some (before.close p)
  | _ => none

end Reader

/-- The tree of a token list. -/
def Expr.ofTokens? (ts : List Token) : Option Expr :=
  (ts.foldlM Reader.step (.start [])).bind Reader.finish

/-- The tree of a text. -/
def Expr.read? (text : List Char) : Option Expr :=
  (tokens? text).bind ofTokens?

end Quadratize.Formula
