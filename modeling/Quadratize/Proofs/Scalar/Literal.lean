import Quadratize.Proofs.Scalar.Bits
import Quadratize.Proofs.Text.Lines
import Quadratize.Scalar.Literal

/-!
# Scalar literals

The texts that are read as scalars form a grammar: an optional minus sign with blanks after it, the
mark of the base, an optional plus sign, and digits with underscores among them.  The number of such
a text is defined from its last digit on, while the reader goes through it from the first.
-/

namespace Quadratize

open Text

/-! ## Digits with underscores -/

namespace Text

variable {radix : ℕ} {c : Char} {cs : List Char} {d n : ℕ}

theorem isBlank_of_digit? (h : digit? radix c = some d) : isBlank c = false := by
  have hrange : (48 ≤ c.toNat ∧ c.toNat ≤ 57) ∨ (97 ≤ c.toNat ∧ c.toNat ≤ 122) ∨
      (65 ≤ c.toNat ∧ c.toNat ≤ 90) := by
    by_contra hnone
    obtain ⟨hdigit, hnone⟩ := not_or.mp hnone
    obtain ⟨hlower, hupper⟩ := not_or.mp hnone
    simp only [digit?, Bool.and_eq_true, decide_eq_true_eq, if_neg hdigit, if_neg hlower,
      if_neg hupper, Nat.lt_irrefl, if_false] at h
    cases h
  simp only [isBlank, Bool.or_eq_false_iff, Bool.and_eq_false_iff, decide_eq_false_iff_not,
    beq_eq_false_iff_ne]
  omega

/-- Digits with underscores after the first, and the number that they stand for. -/
inductive Spaced (radix : ℕ) : List Char → ℕ → Prop
  | digit {c : Char} {d : ℕ} (hc : digit? radix c = some d) : Spaced radix [c] d
  | snoc {cs : List Char} {n : ℕ} {c : Char} {d : ℕ} (hcs : Spaced radix cs n)
    (hc : digit? radix c = some d) : Spaced radix (cs ++ [c]) (n * radix + d)
  | gap {cs : List Char} {n : ℕ} (hcs : Spaced radix cs n) : Spaced radix (cs ++ ['_']) n

namespace Spaced

theorem exists_cons (h : Spaced radix cs n) :
    ∃ c rest d, cs = c :: rest ∧ digit? radix c = some d := by
  induction h with
  | digit hc => exact ⟨_, [], _, rfl, hc⟩
  | snoc _ _ ih =>
    obtain ⟨c, rest, d, rfl, hc⟩ := ih
    exact ⟨c, _, d, List.cons_append, hc⟩
  | gap _ ih =>
    obtain ⟨c, rest, d, rfl, hc⟩ := ih
    exact ⟨c, _, d, List.cons_append, hc⟩

theorem ne_nil (h : Spaced radix cs n) : cs ≠ [] := by
  obtain ⟨c, rest, d, rfl, -⟩ := h.exists_cons
  exact List.cons_ne_nil c rest

theorem eq_of_mem (h : Spaced radix cs n) (hc : c ∈ cs) :
    c = '_' ∨ ∃ d, digit? radix c = some d := by
  induction h with
  | digit hd => exact .inr ⟨_, List.mem_singleton.mp hc ▸ hd⟩
  | snoc _ hd ih =>
    rcases List.mem_append.mp hc with hc | hc
    · exact ih hc
    · exact .inr ⟨_, List.mem_singleton.mp hc ▸ hd⟩
  | gap _ ih =>
    rcases List.mem_append.mp hc with hc | hc
    · exact ih hc
    · exact .inl (List.mem_singleton.mp hc)

/-- A numeral stands for its number. -/
theorem numeral (hradix : 1 < radix) (hmax : radix ≤ 16) (n : ℕ) :
    Spaced radix (numeral radix n) n := by
  apply numeral_induction hradix
  · exact fun d hd ↦ digit (digit?_digitChar hmax hd)
  · exact fun cs n hcs d hd ↦ snoc hcs (digit?_digitChar hmax hd)

end Spaced

end Text

namespace Scalar

variable {radix acc n : ℕ} {cs ds : List Char}

theorem readSpacedDigits_append : readSpacedDigits radix acc (cs ++ ds) =
    (readSpacedDigits radix acc cs).bind fun n ↦ readSpacedDigits radix n ds := by
  induction cs generalizing acc with
  | nil => rfl
  | cons c cs ih =>
    rw [List.cons_append, readSpacedDigits, readSpacedDigits]
    split_ifs
    · exact ih
    · cases digit? radix c with
      | none => rfl
      | some d => exact ih

theorem readSpacedDigits_singleton {c : Char} (hc : c ≠ '_') :
    readSpacedDigits radix acc [c] = (digit? radix c).map fun d ↦ acc * radix + d := by
  rw [readSpacedDigits, if_neg hc]
  cases digit? radix c with
  | none => rfl
  | some d => rfl

theorem readSpacedDigits_digit {c : Char} {d : ℕ} (hc : digit? radix c = some d) :
    readSpacedDigits radix acc [c] = some (acc * radix + d) := by
  have hne : c ≠ '_' := by
    rintro rfl
    simp [digit?] at hc
  rw [readSpacedDigits_singleton hne, hc, Option.map_some]

theorem readSpacedDigits_of_spaced (h : Spaced radix cs n) :
    readSpacedDigits radix 0 cs = some n := by
  induction h with
  | digit hc => rw [readSpacedDigits_digit hc, Nat.zero_mul, Nat.zero_add]
  | snoc _ hc ih => rw [readSpacedDigits_append, ih, Option.bind_some, readSpacedDigits_digit hc]
  | gap _ ih =>
    rw [readSpacedDigits_append, ih]
    rfl

/-- Digits that are read and do not start with an underscore stand for the number that is read. -/
theorem spaced_of_readSpacedDigits {c : Char} (hc : c ≠ '_')
    (h : readSpacedDigits radix 0 (c :: cs) = some n) : Spaced radix (c :: cs) n := by
  induction cs using List.reverseRecOn generalizing n with
  | nil =>
    rw [readSpacedDigits_singleton hc] at h
    obtain ⟨d, hd, rfl⟩ := Option.map_eq_some_iff.mp h
    rw [Nat.zero_mul, Nat.zero_add]
    exact .digit hd
  | append_singleton cs x ih =>
    rw [← List.cons_append, readSpacedDigits_append] at h
    obtain ⟨m, hm, h⟩ := Option.bind_eq_some_iff.mp h
    rw [← List.cons_append]
    by_cases hx : x = '_'
    · rw [hx, readSpacedDigits, if_pos rfl] at h
      rw [hx, ← Option.some.inj h]
      exact (ih hm).gap
    · rw [readSpacedDigits_singleton hx] at h
      obtain ⟨d, hd, rfl⟩ := Option.map_eq_some_iff.mp h
      exact (ih hm).snoc hd

end Scalar

/-! ## The grammar of literals -/

/-- The marks that may stand in front of a numeral of the base. -/
def Radix.marks : Radix → List (List Char)
  | dec => [[]]
  | hex => [[], ['0', 'x'], ['0', 'X']]

theorem Radix.subset_of_mem_marks {radix : Radix} {mark : List Char} (h : mark ∈ radix.marks) :
    mark ⊆ ['0', 'x', 'X', '+', '_'] := by
  cases radix with
  | dec =>
    obtain rfl := List.mem_singleton.mp h
    exact List.nil_subset _
  | hex =>
    simp only [marks, List.mem_cons, List.not_mem_nil, or_false] at h
    rcases h with rfl | rfl | rfl <;> simp

namespace Scalar

/-- A literal without its sign, and its number: a mark, at most one plus sign, and digits. -/
inductive Magnitude (radix : Radix) : List Char → ℕ → Prop
  | intro {mark plus ds : List Char} {n : ℕ} (hmark : mark ∈ radix.marks)
    (hplus : plus ∈ [[], ['+']]) (hds : Spaced radix.base ds n) :
    Magnitude radix (mark ++ (plus ++ ds)) n

/-- A literal and its value. -/
inductive Literal (radix : Radix) : List Char → Scalar → Prop
  | positive {cs : List Char} {n : ℕ} (h : Magnitude radix cs n) : Literal radix cs (reduce n)
  | negative {gap cs : List Char} {n : ℕ} (hgap : IsBlanks gap)
    (h : Magnitude radix cs n) : Literal radix ('-' :: (gap ++ cs)) (-reduce n)

variable {radix : Radix} {cs ds : List Char} {c : Char} {n : ℕ} {a : Scalar}

/-! ## The reader accepts the grammar -/

theorem exists_plus (cs : List Char) : ∃ plus ∈ [[], ['+']], cs = plus ++ dropSinglePlus cs := by
  unfold dropSinglePlus
  split
  · exact ⟨[], List.mem_cons_self, rfl⟩
  · exact ⟨['+'], by simp, rfl⟩
  · exact ⟨[], List.mem_cons_self, rfl⟩

theorem exists_mark (radix : Radix) (cs : List Char) :
    ∃ mark ∈ radix.marks, cs = mark ++ dropMark radix cs := by
  unfold dropMark
  split
  · exact ⟨['0', 'x'], by simp [Radix.marks], rfl⟩
  · exact ⟨['0', 'X'], by simp [Radix.marks], rfl⟩
  · exact ⟨[], by cases radix <;> simp [Radix.marks], rfl⟩

theorem spaced_of_readMagnitude? {radix : ℕ} (h : readMagnitude? radix cs = some n) :
    Spaced radix (dropSinglePlus cs) n := by
  unfold readMagnitude? at h
  split at h
  · cases h
  · cases h
  · rename_i hnil hgap
    cases hcs : dropSinglePlus cs with
    | nil => exact absurd hcs hnil
    | cons c rest =>
      rw [hcs] at h
      exact spaced_of_readSpacedDigits (fun hc ↦ hgap rest (hc ▸ hcs)) h

theorem readMagnitude?_of_spaced {radix : ℕ} (h : Spaced radix ds n) {plus : List Char}
    (hplus : plus ∈ [[], ['+']]) : readMagnitude? radix (plus ++ ds) = some n := by
  obtain ⟨c, rest, d, rfl, hc⟩ := h.exists_cons
  have hplus_ne : c ≠ '+' := by
    rintro rfl
    simp [digit?] at hc
  have hgap_ne : c ≠ '_' := by
    rintro rfl
    simp [digit?] at hc
  have hdrop : dropSinglePlus (plus ++ c :: rest) = c :: rest := by
    rcases List.mem_pair.mp hplus with rfl | rfl
    · simp [dropSinglePlus, hplus_ne]
    · simp [dropSinglePlus, hplus_ne]
  rw [readMagnitude?, hdrop]
  split
  · rename_i heq
    cases heq
  · rename_i heq
    exact absurd (List.cons.inj heq).1 hgap_ne
  · exact readSpacedDigits_of_spaced h

theorem dropMark_eq_self (h : ∀ c ∈ cs.tail, c ≠ 'x' ∧ c ≠ 'X') : dropMark radix cs = cs := by
  unfold dropMark
  split
  · exact absurd rfl (h 'x' List.mem_cons_self).1
  · exact absurd rfl (h 'X' List.mem_cons_self).2
  · rfl

theorem dropMark_of_spaced (h : Spaced radix.base ds n) {mark plus : List Char}
    (hmark : mark ∈ radix.marks) (hplus : plus ∈ [[], ['+']]) :
    dropMark radix (mark ++ (plus ++ ds)) = plus ++ ds := by
  -- Without a mark in front, digits never look like one, as `x` is no digit in either base.
  have hplain : ∀ c ∈ plus ++ ds, c ≠ 'x' ∧ c ≠ 'X' := by
    intro c hc
    rcases List.mem_append.mp hc with hc | hc
    · rcases List.mem_pair.mp hplus with rfl | rfl
      · cases hc
      · obtain rfl := List.mem_singleton.mp hc
        decide
    · rcases h.eq_of_mem hc with rfl | ⟨d, hd⟩
      · decide
      · cases radix <;> constructor <;> rintro rfl <;> cases hd
  have hself : dropMark radix (plus ++ ds) = plus ++ ds :=
    dropMark_eq_self fun c hc ↦ hplain c (List.mem_of_mem_tail hc)
  cases radix with
  | dec =>
    obtain rfl := List.mem_singleton.mp hmark
    exact hself
  | hex =>
    simp only [Radix.marks, List.mem_cons, List.not_mem_nil, or_false] at hmark
    rcases hmark with rfl | rfl | rfl
    · exact hself
    · rfl
    · rfl

theorem readMagnitude?_dropMark :
    readMagnitude? radix.base (dropMark radix cs) = some n ↔ Magnitude radix cs n := by
  constructor
  · intro h
    obtain ⟨mark, hmark, hcs⟩ := exists_mark radix cs
    obtain ⟨plus, hplus, hdigits⟩ := exists_plus (dropMark radix cs)
    rw [hcs, hdigits]
    exact .intro hmark hplus (spaced_of_readMagnitude? h)
  · rintro ⟨hmark, hplus, hds⟩
    rw [dropMark_of_spaced hds hmark hplus, readMagnitude?_of_spaced hds hplus]

namespace Magnitude

/-- The characters of a literal without its sign. -/
theorem eq_of_mem (h : Magnitude radix cs n) (hc : c ∈ cs) :
    c ∈ ['0', 'x', 'X', '+', '_'] ∨ ∃ d, digit? radix.base c = some d := by
  obtain ⟨hmark, hplus, hds⟩ := h
  rcases List.mem_append.mp hc with hc | hc
  · exact .inl (Radix.subset_of_mem_marks hmark hc)
  rcases List.mem_append.mp hc with hc | hc
  · left
    rcases List.mem_pair.mp hplus with rfl | rfl
    · cases hc
    · rw [List.mem_singleton.mp hc]
      decide
  · refine (hds.eq_of_mem hc).imp_left fun h ↦ ?_
    rw [h]
    decide

theorem ne_nil (h : Magnitude radix cs n) : cs ≠ [] := by
  obtain ⟨-, -, hds⟩ := h
  simp [hds.ne_nil]

theorem isNeat (h : Magnitude radix cs n) : IsNeat cs := by
  refine .of_forall h.ne_nil fun c hc ↦ ?_
  rcases h.eq_of_mem hc with hc | ⟨d, hd⟩
  · simp only [List.mem_cons, List.not_mem_nil, or_false] at hc
    rcases hc with rfl | rfl | rfl | rfl | rfl <;> rfl
  · exact isBlank_of_digit? hd

theorem notMem (h : Magnitude radix cs n) (hmark : c ∉ ['0', 'x', 'X', '+', '_'])
    (hdigit : digit? radix.base c = none) : c ∉ cs := by
  intro hc
  rcases h.eq_of_mem hc with hc | ⟨d, hd⟩
  · exact hmark hc
  · rw [hdigit] at hd
    cases hd

end Magnitude

namespace Literal

theorem isNeat (h : Literal radix cs a) : IsNeat cs := by
  cases h with
  | positive h => exact h.isNeat
  | negative _ h => exact (IsNeat.singleton '-' rfl).append_append _ h.isNeat

theorem notMem_comma (h : Literal radix cs a) : ',' ∉ cs := by
  have hdigit : digit? radix.base ',' = none := by cases radix <;> rfl
  cases h with
  | positive h => exact h.notMem (by decide) hdigit
  | negative hgap h =>
    simp only [List.mem_cons, List.mem_append, not_or]
    refine ⟨by decide, fun hc ↦ ?_, h.notMem (by decide) hdigit⟩
    cases hgap _ hc

end Literal

theorem splitSign_of_ne (h : ∀ rest, cs ≠ '-' :: rest) : splitSign cs = (false, cs) := by
  unfold splitSign
  split
  · exact absurd rfl (h _)
  · rfl

theorem Magnitude.ne_minus (h : Magnitude radix cs n) (rest : List Char) : cs ≠ '-' :: rest := by
  have hdigit : digit? radix.base '-' = none := by cases radix <;> rfl
  rintro rfl
  exact h.notMem (by decide) hdigit List.mem_cons_self

theorem read_eq_ok_iff_splitSign : read radix cs = .ok a ↔
    ∃ n, Magnitude radix (splitSign (trim cs)).2 n ∧
      a = if (splitSign (trim cs)).1 then -reduce n else reduce n := by
  simp only [read, ← readMagnitude?_dropMark]
  cases hdigits : dropMark radix (splitSign (trim cs)).2 with
  | nil => exact ⟨nofun, fun ⟨n, h, _⟩ ↦ nomatch h⟩
  | cons c rest =>
    cases hn : readMagnitude? radix.base (c :: rest) with
    | none => exact ⟨nofun, fun ⟨n, h, _⟩ ↦ nomatch h⟩
    | some n =>
      refine ⟨fun h ↦ ⟨n, rfl, (Except.ok.inj h).symm⟩, fun ⟨m, hm, ha⟩ ↦ ?_⟩
      rw [ha, ← Option.some.inj hm]
      rfl

/-- A text is read exactly if it is a literal between blanks. -/
theorem read_eq_ok : read radix cs = .ok a ↔ Literal radix (trim cs) a := by
  rw [read_eq_ok_iff_splitSign]
  generalize trim cs = t
  constructor
  · rintro ⟨n, h, rfl⟩
    by_cases hsign : ∃ rest, t = '-' :: rest
    · obtain ⟨rest, rfl⟩ := hsign
      have hgap : IsBlanks (rest.takeWhile isBlank) := fun c ↦ List.mem_takeWhile_imp
      have hliteral := Literal.negative hgap h
      rwa [splitSign, trimStart, List.takeWhile_append_dropWhile] at hliteral
    · rw [splitSign_of_ne (not_exists.mp hsign)] at h ⊢
      exact .positive h
  · intro h
    cases h with
    | positive h =>
      rw [splitSign_of_ne h.ne_minus]
      exact ⟨_, h, rfl⟩
    | negative hgap h =>
      rw [splitSign, trimStart, h.isNeat.start.dropWhile_append hgap]
      exact ⟨_, h, rfl⟩

theorem Literal.read (h : Literal radix cs a) : read radix cs = .ok a := by
  rw [read_eq_ok, h.isNeat.trim_eq]
  exact h

/-! ## What is written is read back -/

/-- The class of the magnitude is the scalar up to its sign. -/
theorem reduce_magnitude (a : Scalar) : reduce a.magnitude = if a.isNegative then -a else a := by
  unfold magnitude
  split
  · exact ext (val_neg a).symm
  · exact reduce_val a

theorem notMem_toHex (h : digit? 16 c = none) : c ∉ a.toHex :=
  notMem_numeral (by decide) (by decide) h a.val

theorem notMem_toSignedHex (hminus : c ≠ '-') (h : digit? 16 c = none) : c ∉ a.toSignedHex := by
  have hnumeral (n : ℕ) : c ∉ numeral 16 n := notMem_numeral (by decide) (by decide) h n
  unfold toSignedHex
  split
  · exact List.not_mem_cons_of_ne_of_not_mem hminus (hnumeral _)
  · exact hnumeral _

/-- A numeral behind a mark of its base stands for its number. -/
theorem magnitude_numeral {mark : List Char} (hmark : mark ∈ radix.marks) (n : ℕ) :
    Magnitude radix (mark ++ numeral radix.base n) n := by
  have hbase : 1 < radix.base ∧ radix.base ≤ 16 := by cases radix <;> decide
  have h : Magnitude radix (mark ++ ([] ++ numeral radix.base n)) n :=
    .intro hmark List.mem_cons_self (.numeral hbase.1 hbase.2 n)
  exact h

theorem magnitude_hex (n : ℕ) : Magnitude .hex (numeral 16 n) n :=
  @magnitude_numeral .hex [] List.mem_cons_self n

theorem literal_toHex (a : Scalar) : Literal .hex a.toHex a := by
  have h := Literal.positive (magnitude_hex a.val)
  rwa [reduce_val] at h

theorem literal_toSignedHex (a : Scalar) : Literal .hex a.toSignedHex a := by
  unfold toSignedHex
  split
  · rename_i hneg
    have h := Literal.negative isBlanks_nil (magnitude_hex a.magnitude)
    rwa [reduce_magnitude, if_pos hneg, neg_neg] at h
  · exact literal_toHex a

end Scalar

end Quadratize
