import Mathlib.Data.List.Forall2
import Quadratize.Proofs.Text.Lines

/-!
# Pieces between separators

A text has one division into pieces without a separator.  Trimming the pieces between commas does
not see a carriage return at the end of the text, so a line has the same entries with and without
the end that belongs to its line feed.
-/

namespace Quadratize.Text

/-- A text is made up of pieces with a separator between any two, and none inside. -/
structure IsDivision (sep : Char) (cs : List Char) (ps : List (List Char)) : Prop where
  text : List.intercalate [sep] ps = cs
  ne_nil : ps ≠ []
  free : ∀ p ∈ ps, sep ∉ p

variable {sep : Char} {cs : List Char}

/-- A text is a piece without the separator, or such a piece, the separator, and a text. -/
theorem piece_induction (sep : Char) {P : List Char → Prop} (last : ∀ p, sep ∉ p → P p)
    (cons : ∀ p rest, sep ∉ p → P rest → P (p ++ sep :: rest)) (cs : List Char) : P cs := by
  by_cases h : sep ∈ cs
  · obtain ⟨p, rest, rfl, hp⟩ := List.eq_append_cons_of_mem h
    exact cons p rest hp (piece_induction sep last cons rest)
  · exact last cs h
termination_by cs.length

theorem isDivision_splitOn (sep : Char) (cs : List Char) :
    IsDivision sep cs (cs.splitOn sep) where
  text := List.intercalate_splitOn sep
  ne_nil := List.splitOn_ne_nil sep cs
  free := by
    induction cs using piece_induction sep with
    | last p hp =>
      rw [List.splitOn_eq_singleton hp]
      exact List.forall_mem_singleton.mpr hp
    | cons p rest hp ih =>
      rw [List.splitOn_append_cons_self_of_not_mem hp]
      exact List.forall_mem_cons.mpr ⟨hp, ih⟩

theorem IsDivision.eq_splitOn {ps : List (List Char)} (h : IsDivision sep cs ps) :
    ps = cs.splitOn sep := by
  rw [← h.text, List.splitOn_intercalate sep h.free h.ne_nil]

theorem notMem_intercalate {c : Char} {es : List (List Char)} (hsep : c ≠ sep)
    (h : ∀ e ∈ es, c ∉ e) : c ∉ List.intercalate [sep] es := by
  induction es with
  | nil => simp
  | cons e es ih =>
    obtain ⟨he, hes⟩ := List.forall_mem_cons.mp h
    cases es with
    | nil => simpa using he
    | cons e' es =>
      rw [List.intercalate_cons_cons]
      simp [he, hsep, ih hes]

/-! ## Entries -/

theorem entries_append_comma (cs ds : List Char) :
    entries (cs ++ ',' :: ds) = entries cs ++ entries ds := by
  rw [entries, List.splitOn_append_cons_self, List.map_append, List.filter_append]
  rfl

theorem entries_of_notMem (h : ',' ∉ cs) : entries cs = [trim cs].filter (!·.isEmpty) := by
  rw [entries, List.splitOn_eq_singleton h]
  rfl

theorem entries_append_return (cs : List Char) : entries (cs ++ ['\r']) = entries cs := by
  induction cs using piece_induction ',' with
  | last p hp =>
    have hreturn : trim (p ++ ['\r']) = trim p :=
      trim_append_blanks (List.forall_mem_singleton.mpr rfl)
    rw [entries_of_notMem hp, entries_of_notMem (by simpa using hp), hreturn]
  | cons p rest hp ih =>
    rw [List.append_assoc, List.cons_append, entries_append_comma, entries_append_comma, ih]

/-- The end of a line holds no entry. -/
theorem entries_dropReturn (cs : List Char) : entries (dropReturn cs) = entries cs := by
  unfold dropReturn
  split_ifs with h
  · conv_rhs => rw [← List.dropLast_append_getLast? _ h, entries_append_return]
  · rfl

/-- Neat texts are the entries of the text with commas between them. -/
theorem entries_intercalate {es : List (List Char)} (hneat : ∀ e ∈ es, IsNeat e)
    (hfree : ∀ e ∈ es, ',' ∉ e) : entries (List.intercalate [','] es) = es := by
  cases es with
  | nil => rfl
  | cons e es =>
    have htrim : (e :: es).map trim = e :: es :=
      (List.map_congr_left fun e he ↦ (hneat e he).trim_eq).trans (List.map_id _)
    rw [entries, List.splitOn_intercalate ',' hfree (List.cons_ne_nil e es), htrim,
      List.filter_eq_self]
    intro e he
    simpa using (hneat e he).ne_nil

end Quadratize.Text
