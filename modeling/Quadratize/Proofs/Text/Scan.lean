import Quadratize.Proofs.Text.Numeral

/-!
# Scanning what has been written

A scanner takes the longest run of a class of characters, so a run is split off whole if the text
behind it does not start with another character of the class.
-/

namespace Quadratize.Text

/-! ## Where a run stops -/

/-- The text does not start with a character of the class. -/
def Stops (p : Char → Bool) (cs : List Char) : Prop :=
  ∀ c ∈ cs.head?, p c = false

namespace Stops

variable {p : Char → Bool} {c : Char} {cs ds : List Char}

@[simp] theorem nil : Stops p [] := nofun

@[simp] theorem cons_iff : Stops p (c :: cs) ↔ p c = false := by
  simp [Stops]

theorem append (hcs : Stops p cs) (hds : Stops p ds) : Stops p (cs ++ ds) := by
  cases cs with
  | nil => exact hds
  | cons c cs => exact cons_iff.mpr (cons_iff.mp hcs)

theorem append_of_ne_nil (hcs : Stops p cs) (h : cs ≠ []) : Stops p (cs ++ ds) := by
  cases cs with
  | nil => exact absurd rfl h
  | cons c cs => exact cons_iff.mpr (cons_iff.mp hcs)

theorem takeWhile_eq (h : Stops p cs) : cs.takeWhile p = [] := by
  cases cs with
  | nil => rfl
  | cons c cs => exact List.takeWhile_cons_of_neg (by simpa using h)

theorem dropWhile_eq (h : Stops p cs) : cs.dropWhile p = cs := by
  cases cs with
  | nil => rfl
  | cons c cs => exact List.dropWhile_cons_of_neg (by simpa using h)

theorem takeWhile_append (h : Stops p ds) (hcs : ∀ c ∈ cs, p c = true) :
    (cs ++ ds).takeWhile p = cs := by
  rw [List.takeWhile_append_of_pos hcs, h.takeWhile_eq, List.append_nil]

theorem dropWhile_append (h : Stops p ds) (hcs : ∀ c ∈ cs, p c = true) :
    (cs ++ ds).dropWhile p = ds := by
  rw [List.dropWhile_append_of_pos hcs, h.dropWhile_eq]

/-- What is left after a run has been dropped starts with no character of the class. -/
theorem dropWhile (p : Char → Bool) (cs : List Char) : Stops p (cs.dropWhile p) := by
  induction cs with
  | nil => exact nil
  | cons c cs ih =>
    rw [List.dropWhile_cons]
    split
    · exact ih
    · rename_i h
      exact cons_iff.mpr (by simpa using h)

end Stops

/-! ## Numbers -/

/-- A nonempty run of decimal digits. -/
structure IsRun (ds : List Char) : Prop where
  ne_nil : ds ≠ []
  digits : ∀ d ∈ ds, isDigit d = true

theorem isRun_decimal (n : Nat) : IsRun (decimal n) where
  ne_nil := decimal_ne_nil n
  digits := fun _ ↦ isDigit_of_mem_decimal

namespace IsRun

variable {ds rest : List Char}

theorem exists_eq_cons (h : IsRun ds) :
    ∃ c cs, ds = c :: cs ∧ isDigit c = true ∧ ∀ d ∈ cs, isDigit d = true := by
  obtain ⟨c, cs, rfl⟩ := List.exists_cons_of_ne_nil h.ne_nil
  obtain ⟨hc, hcs⟩ := List.forall_mem_cons.mp h.digits
  exact ⟨c, cs, rfl, hc, hcs⟩

theorem splitDigits_append (hds : ∀ d ∈ ds, isDigit d = true) (hrest : Stops isDigit rest) :
    splitDigits (ds ++ rest) = (ds, rest) :=
  Prod.ext (hrest.takeWhile_append hds) (hrest.dropWhile_append hds)

end IsRun

/-- Only a space and a tab are gaps. -/
theorem isGap_eq_false {p : Char → Bool} {c : Char} (hspace : p ' ' = false) (htab : p '\t' = false)
    (h : p c = true) : isGap c = false := by
  by_contra hg
  have hgap : c = ' ' ∨ c = '\t' := by
    simpa only [isGap, Bool.not_eq_false, Bool.or_eq_true, beq_iff_eq] using hg
  rcases hgap with rfl | rfl
  · rw [hspace] at h
    cases h
  · rw [htab] at h
    cases h

theorem isGap_of_isDigit {c : Char} (h : isDigit c = true) : isGap c = false :=
  isGap_eq_false rfl rfl h

@[simp] theorem number?_space (cs : List Char) : number? (' ' :: cs) = number? cs := rfl

/-- A run of digits is split off whole. -/
theorem IsRun.number?_append {ds rest : List Char} (h : IsRun ds) (hrest : Stops isDigit rest) :
    number? (ds ++ rest) = some (ds, rest) := by
  obtain ⟨c, cs, rfl, hc, hcs⟩ := h.exists_eq_cons
  have hgaps : skipGaps (c :: (cs ++ rest)) = c :: (cs ++ rest) :=
    Stops.dropWhile_eq (Stops.cons_iff.mpr (isGap_of_isDigit hc))
  rw [number?, List.cons_append, hgaps]
  simp only [hc, if_true, splitDigits_append hcs hrest]

theorem numbers_of_number? {cs ds rest : List Char} (h : number? cs = some (ds, rest)) :
    numbers cs = (ds :: (numbers rest).1, (numbers rest).2) := by
  rw [numbers]
  split
  · rename_i heq
    rw [h] at heq
    cases heq
    rfl
  · rename_i heq
    rw [h] at heq
    cases heq

theorem numbers_of_number?_none {cs : List Char} (h : number? cs = none) :
    numbers cs = ([], cs) := by
  rw [numbers]
  split
  · rename_i heq
    rw [h] at heq
    cases heq
  · rfl

theorem intercalate_space_cons (ds : List Char) (runs : List (List Char)) :
    List.intercalate [' '] (ds :: runs) = ds ++ runs.flatMap (' ' :: ·) := by
  induction runs generalizing ds with
  | nil => rw [List.intercalate_singleton, List.flatMap_nil, List.append_nil]
  | cons es runs ih =>
    rw [List.intercalate_cons_cons, ih, List.flatMap_cons, List.append_assoc,
      List.singleton_append, List.cons_append]

end Quadratize.Text
