import Quadratize.Text.Blank

/-!
# Lines and pieces of a text

A line ends at a line feed; one carriage return before the line feed belongs to the end. A text
that ends with a line feed has no further, empty line.
-/

namespace Quadratize.Text

/-- The text before the first `sep` and the text after it. -/
def cut? (sep : Char) (cs : List Char) : Option (List Char × List Char) :=
  match cs.dropWhile (· != sep) with
  | [] => none
  | _ :: rest => some (cs.takeWhile (· != sep), rest)

theorem length_snd_of_cut? {sep : Char} {cs l r : List Char} (h : cut? sep cs = some (l, r)) :
    r.length < cs.length := by
  unfold cut? at h
  split at h
  · cases h
  · rename_i c rest hd
    cases h
    have := (List.dropWhile_sublist (· != sep) (l := cs)).length_le
    rw [hd, List.length_cons] at this
    omega

/-- Drops one carriage return at the end. -/
def dropReturn (cs : List Char) : List Char :=
  if cs.getLast? = some '\r' then cs.dropLast else cs

/-- The lines of a text, without their ends. -/
def lines (cs : List Char) : List (List Char) :=
  match _h : cut? '\n' cs with
  | some (line, rest) => dropReturn line :: lines rest
  | none => if cs.isEmpty then [] else [cs]
termination_by cs.length
decreasing_by exact length_snd_of_cut? _h

/-- The pieces between commas, trimmed, without the empty ones. -/
def entries (cs : List Char) : List (List Char) :=
  ((cs.splitOn ',').map trim).filter (!·.isEmpty)

end Quadratize.Text
