import Quadratize.Text.Scan

/-!
# Tokens of formulas

Spaces and tabs may stand between tokens, not inside them.
-/

namespace Quadratize.Formula

open Text

/-- A token of a formula. Numbers and wires keep their digits. -/
inductive Token
  | number (digits : List Char)
  | wire (digits : List Char)
  | plus
  | minus
  | times
  | opening
  | closing
deriving DecidableEq

/-- The token of a single character. -/
def symbol? (c : Char) : Option Token :=
  if c = '+' then some .plus
  else if c = '-' then some .minus
  else if c = '*' then some .times
  else if c = '(' then some .opening
  else if c = ')' then some .closing
  else none

/-- The digits of a placeholder whose first underscore has been read, and the rest. -/
def placeholder? (cs : List Char) : Option (List Char × List Char) :=
  match splitDigits cs with
  | ([], _) => none
  | (digits, '_' :: rest) => some (digits, rest)
  | _ => none

theorem length_placeholder? {cs ds rest : List Char} (h : placeholder? cs = some (ds, rest)) :
    rest.length < cs.length := by
  have hl := length_splitDigits cs
  unfold placeholder? at h
  split at h
  · cases h
  · rename_i heq
    cases h
    rw [heq, List.length_cons] at hl
    omega
  · cases h

/-- Splits a text into tokens. -/
def tokens? : List Char → Option (List Token)
  | [] => some []
  | c :: cs =>
    if isGap c then tokens? cs
    else if isDigit c then
      let digits := splitDigits cs
      (tokens? digits.2).map (.number (c :: digits.1) :: ·)
    else if c = '_' then
      match _h : placeholder? cs with
      | some (digits, rest) => (tokens? rest).map (.wire digits :: ·)
      | none => none
    else
      match symbol? c with
      | some t => (tokens? cs).map (t :: ·)
      | none => none
termination_by cs => cs.length
decreasing_by
  · simp
  · have := length_splitDigits cs
    simp only [List.length_cons]
    omega
  · have := length_placeholder? _h
    simp only [List.length_cons]
    omega
  · simp

end Quadratize.Formula
