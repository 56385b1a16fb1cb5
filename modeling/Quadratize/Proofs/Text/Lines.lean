import Mathlib.Data.List.DropRight
import Quadratize.Proofs.Text.Scan
import Quadratize.Text.Lines

/-!
# Trimmed texts and lines

Trimming twice is trimming once, and a text that is put together from lines falls back into them.
-/

namespace Quadratize.Text

/-! ## Trimming -/

theorem trimEnd_eq_rdropWhile (cs : List Char) : trimEnd cs = cs.rdropWhile isBlank := rfl

/-- Blanks at the end can be dropped from a text that does not start with one. -/
theorem Stops.trimEnd {cs : List Char} (h : Stops isBlank cs) : Stops isBlank (trimEnd cs) := by
  obtain ⟨tail, htail⟩ := List.rdropWhile_prefix isBlank cs
  rw [← trimEnd_eq_rdropWhile] at htail
  cases htrim : Text.trimEnd cs with
  | nil => exact nil
  | cons c ds =>
    rw [← htail, htrim] at h
    exact cons_iff.mpr (cons_iff.mp h)

theorem trimStart_trim (cs : List Char) : trimStart (trim cs) = trim cs :=
  (Stops.dropWhile isBlank cs).trimEnd.dropWhile_eq

@[simp] theorem trim_trim (cs : List Char) : trim (trim cs) = trim cs := by
  conv_lhs => rw [trim, trimStart_trim]
  exact List.rdropWhile_idempotent isBlank (trimStart cs)

theorem mem_of_mem_trim {c : Char} {cs : List Char} (h : c ∈ trim cs) : c ∈ cs := by
  have hend : c ∈ trimStart cs := (List.rdropWhile_prefix isBlank _).subset h
  exact (List.dropWhile_sublist isBlank).subset hend

theorem isBlank_of_isDigit {c : Char} (h : isDigit c = true) : isBlank c = false := by
  unfold isDigit at h
  unfold isBlank
  simp only [Bool.and_eq_true, decide_eq_true_eq] at h
  simp
  omega

/-- A text that neither starts nor ends with a blank. -/
structure IsNeat (cs : List Char) : Prop where
  ne_nil : cs ≠ []
  start : Stops isBlank cs
  finish : Stops isBlank cs.reverse

namespace IsNeat

variable {cs ds : List Char}

theorem trim_eq (h : IsNeat cs) : trim cs = cs := by
  rw [trim, trimStart, h.start.dropWhile_eq, Text.trimEnd, h.finish.dropWhile_eq,
    List.reverse_reverse]

/-- What stands between two neat texts may start and end with blanks. -/
theorem append_append (hcs : IsNeat cs) (mid : List Char) (hds : IsNeat ds) :
    IsNeat (cs ++ mid ++ ds) where
  ne_nil := by simp [hcs.ne_nil]
  start := by
    rw [List.append_assoc]
    exact hcs.start.append_of_ne_nil hcs.ne_nil
  finish := by
    rw [List.reverse_append]
    exact hds.finish.append_of_ne_nil (by simpa using hds.ne_nil)

theorem of_forall (hne : cs ≠ []) (h : ∀ c ∈ cs, isBlank c = false) : IsNeat cs where
  ne_nil := hne
  start := fun c hc ↦ h c (List.mem_of_mem_head? hc)
  finish := fun c hc ↦ h c (List.mem_reverse.mp (List.mem_of_mem_head? hc))

theorem singleton (c : Char) (hc : isBlank c = false) : IsNeat [c] :=
  of_forall (List.cons_ne_nil c []) (List.forall_mem_singleton.mpr hc)

theorem decimal (n : Nat) : IsNeat (decimal n) :=
  of_forall (decimal_ne_nil n) fun _ hc ↦ isBlank_of_isDigit (isDigit_of_mem_decimal hc)

end IsNeat

/-! ## Blanks around a text -/

section

variable {cs : List Char}

/-- A text that consists of blanks. -/
def IsBlanks (cs : List Char) : Prop :=
  ∀ c ∈ cs, isBlank c = true

theorem isBlanks_nil : IsBlanks [] := List.forall_mem_nil _

theorem exists_blanks (cs : List Char) :
    ∃ pre post, cs = pre ++ (trim cs ++ post) ∧ IsBlanks pre ∧ IsBlanks post := by
  refine ⟨cs.takeWhile isBlank, ((trimStart cs).reverse.takeWhile isBlank).reverse, ?_,
    fun c ↦ List.mem_takeWhile_imp, fun c hc ↦ List.mem_takeWhile_imp (List.mem_reverse.mp hc)⟩
  rw [trim, trimEnd, ← List.reverse_append, List.takeWhile_append_dropWhile, List.reverse_reverse,
    trimStart, List.takeWhile_append_dropWhile]

theorem isNeat_trim (h : trim cs ≠ []) : IsNeat (trim cs) where
  ne_nil := h
  start := (Stops.dropWhile isBlank cs).trimEnd
  finish := by
    rw [trim, trimEnd, List.reverse_reverse]
    exact Stops.dropWhile isBlank _

theorem IsNeat.trim_blanks (h : IsNeat cs) {pre post : List Char} (hpre : IsBlanks pre)
    (hpost : IsBlanks post) : trim (pre ++ (cs ++ post)) = cs := by
  have hstart : trimStart (pre ++ (cs ++ post)) = cs ++ post :=
    (h.start.append_of_ne_nil h.ne_nil).dropWhile_append hpre
  have hend : (post.reverse ++ cs.reverse).dropWhile isBlank = cs.reverse :=
    h.finish.dropWhile_append fun c hc ↦ hpost c (List.mem_reverse.mp hc)
  rw [trim, hstart, trimEnd, List.reverse_append, hend, List.reverse_reverse]

theorem trim_eq_nil : trim cs = [] ↔ IsBlanks cs := by
  constructor
  · intro h
    obtain ⟨pre, post, hcs, hpre, hpost⟩ := exists_blanks cs
    rw [hcs, h]
    exact List.forall_mem_append.mpr ⟨hpre, hpost⟩
  · intro h
    rw [trim, trimStart, List.dropWhile_eq_nil_iff.mpr h]
    rfl

theorem trim_append_blanks {ds : List Char} (h : IsBlanks ds) : trim (cs ++ ds) = trim cs := by
  obtain ⟨pre, post, hcs, hpre, hpost⟩ := exists_blanks cs
  by_cases hnil : trim cs = []
  · rw [hnil, trim_eq_nil]
    exact List.forall_mem_append.mpr ⟨trim_eq_nil.mp hnil, h⟩
  · conv_lhs => rw [hcs, List.append_assoc, List.append_assoc]
    exact (isNeat_trim hnil).trim_blanks hpre (List.forall_mem_append.mpr ⟨hpost, h⟩)

end

/-! ## Texts on one line -/

/-- A text without line ends. -/
structure OneLine (cs : List Char) : Prop where
  noFeed : '\n' ∉ cs
  noReturn : '\r' ∉ cs

namespace OneLine

variable {cs ds : List Char}

theorem of_forall {p : Char → Bool} (hfeed : p '\n' = false) (hreturn : p '\r' = false)
    (h : ∀ c ∈ cs, p c = true) : OneLine cs where
  noFeed := fun hmem ↦ by simp [h _ hmem] at hfeed
  noReturn := fun hmem ↦ by simp [h _ hmem] at hreturn

theorem append (hcs : OneLine cs) (hds : OneLine ds) : OneLine (cs ++ ds) where
  noFeed := fun h ↦ (List.mem_append.mp h).elim hcs.noFeed hds.noFeed
  noReturn := fun h ↦ (List.mem_append.mp h).elim hcs.noReturn hds.noReturn

theorem of_subset (hds : OneLine ds) (h : cs ⊆ ds) : OneLine cs where
  noFeed := fun hmem ↦ hds.noFeed (h hmem)
  noReturn := fun hmem ↦ hds.noReturn (h hmem)

theorem any_eq_false (h : OneLine cs) : cs.any (fun c ↦ c == '\n' || c == '\r') = false := by
  refine List.any_eq_false.mpr fun c hc heq ↦ ?_
  rcases Bool.or_eq_true_iff.mp heq with hfeed | hreturn
  · obtain rfl := beq_iff_eq.mp hfeed
    exact h.noFeed hc
  · obtain rfl := beq_iff_eq.mp hreturn
    exact h.noReturn hc

theorem of_any_eq_false (h : cs.any (fun c ↦ c == '\n' || c == '\r') = false) : OneLine cs where
  noFeed := fun hmem ↦ List.any_eq_false.mp h _ hmem rfl
  noReturn := fun hmem ↦ List.any_eq_false.mp h _ hmem rfl

theorem decimal (n : Nat) : OneLine (decimal n) :=
  of_forall (p := isDigit) rfl rfl fun _ ↦ isDigit_of_mem_decimal

end OneLine

/-- A text that a line can hold as its comment: trimmed and without line ends. -/
structure IsNote (cs : List Char) : Prop extends OneLine cs where
  trimmed : trim cs = cs

theorem isNote_nil : IsNote [] := ⟨⟨by simp, by simp⟩, rfl⟩

theorem OneLine.isNote_trim {cs : List Char} (h : OneLine cs) : IsNote (trim cs) where
  toOneLine := h.of_subset fun _ ↦ mem_of_mem_trim
  trimmed := trim_trim cs

/-! ## Lines -/

/-- A text is cut at its first line feed. -/
theorem cut?_append {sep : Char} {cs : List Char} (h : sep ∉ cs) (rest : List Char) :
    cut? sep (cs ++ sep :: rest) = some (cs, rest) := by
  have hcs : ∀ c ∈ cs, (c != sep) = true := by
    intro c hc
    simpa using ne_of_mem_of_not_mem hc h
  have hstop : Stops (· != sep) (sep :: rest) := Stops.cons_iff.mpr (by simp)
  rw [cut?, hstop.dropWhile_append hcs, hstop.takeWhile_append hcs]

theorem cut?_eq_none {sep : Char} {cs : List Char} (h : sep ∉ cs) : cut? sep cs = none := by
  have hnil : cs.dropWhile (· != sep) = [] := by
    refine List.dropWhile_eq_nil_iff.mpr fun c hc ↦ ?_
    simpa using ne_of_mem_of_not_mem hc h
  rw [cut?, hnil]

@[simp] theorem lines_nil : lines [] = [] := by
  rw [lines]
  rfl

theorem lines_of_notMem {cs : List Char} (h : '\n' ∉ cs) :
    lines cs = if cs.isEmpty then [] else [cs] := by
  rw [lines]
  split
  · rename_i heq
    rw [cut?_eq_none h] at heq
    cases heq
  · rfl

theorem lines_append_feed {line : List Char} (h : '\n' ∉ line) (rest : List Char) :
    lines (line ++ '\n' :: rest) = dropReturn line :: lines rest := by
  rw [lines]
  split
  · rename_i heq
    rw [cut?_append h] at heq
    cases heq
    rfl
  · rename_i heq
    rw [cut?_append h] at heq
    cases heq

/-- The first line of a text without carriage returns in that line. -/
theorem lines_append {line : List Char} (hline : OneLine line) (rest : List Char) :
    lines (line ++ '\n' :: rest) = line :: lines rest := by
  have hdrop : dropReturn line = line :=
    if_neg fun h ↦ hline.noReturn (List.mem_of_mem_getLast? h)
  rw [lines_append_feed hline.noFeed, hdrop]

theorem flatMap_line {α : Type} {f g : α → List Char} (h : ∀ a, f a = g a ++ ['\n']) (l : List α) :
    l.flatMap f = (l.map g).flatMap fun cs ↦ cs ++ ['\n'] := by
  rw [List.flatMap_map]
  exact congrArg (l.flatMap ·) (funext h)

/-- A text that is put together from ended lines falls back into them. -/
theorem lines_flatMap {ls : List (List Char)} (h : ∀ l ∈ ls, OneLine l) :
    lines (ls.flatMap fun l ↦ l ++ ['\n']) = ls := by
  induction ls with
  | nil => exact lines_nil
  | cons l ls ih =>
    obtain ⟨hl, hls⟩ := List.forall_mem_cons.mp h
    rw [List.flatMap_cons, List.append_assoc, List.singleton_append, lines_append hl, ih hls]

end Quadratize.Text
