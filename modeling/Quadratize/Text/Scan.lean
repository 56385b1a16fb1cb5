import Quadratize.Text.Numeral

/-!
# Scanning a line

Scanners take a text, skip the gaps at its start and split something off. A gap is a space or a
tab.
-/

namespace Quadratize.Text

/-- Whether a character may stand between tokens. -/
def isGap (c : Char) : Bool :=
  c == ' ' || c == '\t'

/-- Drops the gaps at the start. -/
def skipGaps (cs : List Char) : List Char :=
  cs.dropWhile isGap

theorem length_skipGaps (cs : List Char) : (skipGaps cs).length ≤ cs.length :=
  (List.dropWhile_sublist isGap).length_le

/-- The digits at the start of a text, and the rest. -/
def splitDigits (cs : List Char) : List Char × List Char :=
  (cs.takeWhile isDigit, cs.dropWhile isDigit)

theorem length_splitDigits (cs : List Char) : (splitDigits cs).2.length ≤ cs.length :=
  (List.dropWhile_sublist isDigit).length_le

/-- Splits off a keyword. -/
def keyword? (word : String) (cs : List Char) : Option (List Char) :=
  word.toList.isPrefixOf? (skipGaps cs)

/-- Splits off a nonempty run of digits. -/
def number? (cs : List Char) : Option (List Char × List Char) :=
  match skipGaps cs with
  | c :: rest =>
    if isDigit c then some (c :: (splitDigits rest).1, (splitDigits rest).2) else none
  | [] => none

theorem length_number? {cs ds rest : List Char} (h : number? cs = some (ds, rest)) :
    rest.length < cs.length := by
  have hs := length_skipGaps cs
  unfold number? at h
  split at h
  · rename_i c tail heq
    split at h
    · cases h
      have := length_splitDigits tail
      rw [heq, List.length_cons] at hs
      omega
    · cases h
  · cases h

/-- Splits off as many numbers as there are. -/
def numbers (cs : List Char) : List (List Char) × List Char :=
  match _h : number? cs with
  | some (ds, rest) => (ds :: (numbers rest).1, (numbers rest).2)
  | none => ([], cs)
termination_by cs.length
decreasing_by all_goals exact length_number? _h

/-- Whether a word occurs in a text. -/
def occursIn (word : List Char) : List Char → Bool
  | [] => word.isEmpty
  | c :: cs => word.isPrefixOf (c :: cs) || occursIn word cs

/-- Fills a text with spaces up to a width. -/
def padRight (width : Nat) (cs : List Char) : List Char :=
  cs ++ List.replicate (width - cs.length) ' '

end Quadratize.Text
