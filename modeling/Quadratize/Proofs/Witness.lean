import Quadratize.Proofs.Except
import Quadratize.Proofs.Scalar.Literal
import Quadratize.Proofs.Text.Pieces
import Quadratize.Witness

/-!
# Witness files

A line of a witness file is a list of literals with commas between them; blanks may stand around
literals, and there may be nothing between two commas.  The values of a file are those of its lines
one after the other, and the first line with something else is reported.
-/

namespace Quadratize.Witness

open Text

/-! ## Lines that hold values -/

/-- What stands between two commas, and the values that it contributes. -/
inductive Entry : List Char → List Scalar → Prop
  | blank {cs : List Char} (h : IsBlanks cs) : Entry cs []
  | literal {pre cs post : List Char} {a : Scalar} (hpre : IsBlanks pre)
    (h : Scalar.Literal .hex cs a) (hpost : IsBlanks post) : Entry (pre ++ (cs ++ post)) [a]

/-- A line that holds literals with commas between them, and their values. -/
def Spells (line : List Char) (xs : List Scalar) : Prop :=
  ∃ ps xss, IsDivision ',' line ps ∧ List.Forall₂ Entry ps xss ∧ xss.flatten = xs

/-- A line with something between commas that is neither blank nor a literal. -/
def Spoiled (line : List Char) : Prop :=
  ∃ ps, IsDivision ',' line ps ∧ ∃ p ∈ ps, ∀ xs, ¬Entry p xs

variable {line : List Char} {xs : List Scalar} {n : ℕ}

theorem spells_iff : Spells line xs ↔
    ∃ xss, List.Forall₂ Entry (line.splitOn ',') xss ∧ xss.flatten = xs := by
  constructor
  · rintro ⟨ps, xss, hps, h⟩
    rw [← hps.eq_splitOn]
    exact ⟨xss, h⟩
  · rintro ⟨xss, h⟩
    exact ⟨_, xss, isDivision_splitOn ',' line, h⟩

theorem spells_last (h : ',' ∉ line) : Spells line xs ↔ Entry line xs := by
  rw [spells_iff, List.splitOn_eq_singleton h]
  constructor
  · rintro ⟨_, _ | ⟨hentry, _ | _⟩, rfl⟩
    simpa using hentry
  · intro hentry
    exact ⟨[xs], .cons hentry .nil, by simp⟩

theorem spells_nil : Spells [] [] :=
  (spells_last List.not_mem_nil).mpr (.blank isBlanks_nil)

theorem spells_cons {p rest : List Char} (h : ',' ∉ p) : Spells (p ++ ',' :: rest) xs ↔
    ∃ ys zs, Entry p ys ∧ Spells rest zs ∧ ys ++ zs = xs := by
  simp only [spells_iff, List.splitOn_append_cons_self_of_not_mem h]
  constructor
  · rintro ⟨_, _ | ⟨hentry, hrest⟩, rfl⟩
    exact ⟨_, _, hentry, ⟨_, hrest, rfl⟩, rfl⟩
  · rintro ⟨ys, _, hentry, ⟨xss, hrest, rfl⟩, rfl⟩
    exact ⟨ys :: xss, .cons hentry hrest, rfl⟩

theorem exists_spells : (∃ xs, Spells line xs) ↔ ∀ p ∈ line.splitOn ',', ∃ xs, Entry p xs := by
  induction line using piece_induction ',' with
  | last p hp => simp [spells_last hp, List.splitOn_eq_singleton hp]
  | cons p rest hp ih =>
    rw [List.splitOn_append_cons_self_of_not_mem hp, List.forall_mem_cons, ← ih]
    simp only [spells_cons hp]
    constructor
    · rintro ⟨_, ys, zs, hentry, hrest, -⟩
      exact ⟨⟨ys, hentry⟩, zs, hrest⟩
    · rintro ⟨⟨ys, hentry⟩, zs, hrest⟩
      exact ⟨_, ys, zs, hentry, hrest, rfl⟩

/-- Every line holds values or something else. -/
theorem spoiled_iff : Spoiled line ↔ ¬∃ xs, Spells line xs := by
  rw [exists_spells]
  constructor
  · rintro ⟨ps, hps, p, hp, hbad⟩ h
    obtain ⟨xs, hxs⟩ := h p (hps.eq_splitOn ▸ hp)
    exact hbad xs hxs
  · intro h
    push Not at h
    exact ⟨_, isDivision_splitOn ',' line, h⟩

/-! ## Reading a line -/

theorem entry_iff : Entry line xs ↔ (trim line = [] ∧ xs = []) ∨
    ∃ a, trim line ≠ [] ∧ Scalar.read .hex (trim line) = .ok a ∧ xs = [a] := by
  constructor
  · rintro (h | ⟨hpre, h, hpost⟩)
    · exact .inl ⟨trim_eq_nil.mpr h, rfl⟩
    · rw [h.isNeat.trim_blanks hpre hpost]
      exact .inr ⟨_, h.isNeat.ne_nil, h.read, rfl⟩
  · rintro (⟨h, rfl⟩ | ⟨a, -, h, rfl⟩)
    · exact .blank (trim_eq_nil.mp h)
    · obtain ⟨pre, post, hline, hpre, hpost⟩ := exists_blanks line
      rw [Scalar.read_eq_ok, trim_trim] at h
      rw [hline]
      exact .literal hpre h hpost

theorem mapM_entries_eq_ok (hfree : ',' ∉ line) :
    (entries line).mapM (Scalar.read .hex) = .ok xs ↔ Entry line xs := by
  rw [entries_of_notMem hfree, entry_iff, mapM_eq_ok]
  cases htrim : trim line with
  | nil => simp
  | cons c rest => simp [List.forall₂_cons_left_iff]

theorem readLine_eq_ok : readLine n line = .ok xs ↔ Spells line xs := by
  rw [readLine, mapError_eq_ok]
  induction line using piece_induction ',' generalizing xs with
  | last p hp => rw [mapM_entries_eq_ok hp, spells_last hp]
  | cons p rest hp ih =>
    rw [entries_append_comma, mapM_append_eq_ok, spells_cons hp]
    simp only [mapM_entries_eq_ok hp, ih]

theorem readLine_error {e : ReadError} (h : readLine n line = .error e) : e.line = n := by
  unfold readLine at h
  cases hmap : (entries line).mapM (Scalar.read .hex) with
  | ok xs =>
    rw [hmap] at h
    cases h
  | error cause =>
    rw [hmap] at h
    cases h
    rfl

theorem exists_readLine_error : (∃ e, readLine n line = .error e) ↔ Spoiled line := by
  rw [spoiled_iff]
  cases hread : readLine n line with
  | ok xs => exact ⟨nofun, fun h ↦ absurd ⟨xs, readLine_eq_ok.mp hread⟩ h⟩
  | error e =>
    refine ⟨fun _ ⟨xs, hxs⟩ ↦ ?_, fun _ ↦ ⟨e, rfl⟩⟩
    rw [readLine_eq_ok.mpr hxs] at hread
    cases hread

/-! ## Reading a file -/

theorem readLine_dropReturn : readLine n (dropReturn line) = readLine n line := by
  rw [readLine, readLine, entries_dropReturn]

/-- The ends of lines, and an empty line at the end, do not matter. -/
theorem readLines_lines {ls : List (List Char)} (h : ∀ l ∈ ls, '\n' ∉ l) :
    readLines ((lines (List.intercalate ['\n'] ls)).zipIdx n) = readLines (ls.zipIdx n) := by
  induction ls generalizing n with
  | nil => simp
  | cons l ls ih =>
    obtain ⟨hl, hls⟩ := List.forall_mem_cons.mp h
    cases ls with
    | nil =>
      -- The last line has no line feed: an empty one is no line of the text, and holds no entry.
      rw [List.intercalate_singleton, lines_of_notMem hl]
      cases l with
      | nil => rfl
      | cons c l => rfl
    | cons l' ls =>
      rw [List.intercalate_cons_cons, List.append_assoc, List.singleton_append,
        lines_append_feed hl, List.zipIdx_cons, List.zipIdx_cons, readLines, readLines,
        readLine_dropReturn, ih hls]

theorem read_intercalate {ls : List (List Char)} (h : ∀ l ∈ ls, '\n' ∉ l) :
    read (List.intercalate ['\n'] ls) = (readLines (ls.zipIdx 1)).map Witness.mk := by
  rw [read, readLines_lines h]

theorem readLines_of_spells {ls : List (List Char)} {xss : List (List Scalar)}
    (h : List.Forall₂ Spells ls xss) : readLines (ls.zipIdx n) = .ok xss.flatten := by
  induction h generalizing n with
  | nil => rfl
  | cons hline _ ih =>
    rw [List.zipIdx_cons, readLines]
    exact bind_eq_ok.mpr ⟨_, readLine_eq_ok.mpr hline, bind_eq_ok.mpr ⟨_, ih, rfl⟩⟩

/-- The first line that is spoiled is reported. -/
theorem readLines_of_spoiled {before : List (List Char)} (after : List (List Char))
    (hbefore : ∀ l ∈ before, ¬Spoiled l) (h : Spoiled line) :
    ∃ cause, readLines ((before ++ line :: after).zipIdx n) =
      .error ⟨n + before.length, cause⟩ := by
  induction before generalizing n with
  | nil =>
    obtain ⟨e, he⟩ := exists_readLine_error.mpr h
    refine ⟨e.cause, ?_⟩
    rw [List.nil_append, List.zipIdx_cons, readLines, he, ← readLine_error he]
    rfl
  | cons l before ih =>
    obtain ⟨hl, hbefore⟩ := List.forall_mem_cons.mp hbefore
    obtain ⟨xs, hxs⟩ := not_not.mp (spoiled_iff.not.mp hl)
    obtain ⟨cause, hcause⟩ := ih hbefore (n := n + 1)
    refine ⟨cause, ?_⟩
    rw [List.cons_append, List.zipIdx_cons, readLines, readLine_eq_ok.mpr hxs, hcause,
      List.length_cons, Nat.add_right_comm, Nat.add_assoc]
    rfl

/-- A written line spells its values. -/
theorem spells_render (xs : List Scalar) :
    Spells (List.intercalate [','] (xs.map Scalar.toHex)) xs := by
  have hneat : ∀ e ∈ xs.map Scalar.toHex, IsNeat e :=
    List.forall_mem_map.mpr fun a _ ↦ a.literal_toHex.isNeat
  have hfree : ∀ e ∈ xs.map Scalar.toHex, ',' ∉ e :=
    List.forall_mem_map.mpr fun a _ ↦ a.literal_toHex.notMem_comma
  rw [← readLine_eq_ok (n := 1), readLine, mapError_eq_ok, entries_intercalate hneat hfree,
    mapM_eq_ok, List.forall₂_map_left_iff]
  exact List.forall₂_same.mpr fun a _ ↦ a.literal_toHex.read

theorem read_render (w : Witness) : read w.render = .ok w := by
  have hfeed : '\n' ∉ List.intercalate [','] (w.values.map Scalar.toHex) :=
    notMem_intercalate (by decide) (List.forall_mem_map.mpr fun a _ ↦ Scalar.notMem_toHex rfl)
  have hread := readLines_of_spells (n := 1)
    (.cons (spells_render w.values) (.cons spells_nil .nil))
  have htext : w.render =
      List.intercalate ['\n'] [List.intercalate [','] (w.values.map Scalar.toHex), []] := by
    simp [render, List.intercalate_cons_cons]
  rw [htext, read_intercalate (by simpa using hfeed), hread]
  simp [Except.map]

/-- A witness is read back from what is written for it.  In general, a text without line feeds in
its lines gives the values of the lines one after the other, or is refused at the first line that
holds something else than values. -/
theorem read_written_lines : (∀ w : Witness, read w.render = .ok w) ∧
    ∀ ls : List (List Char), (∀ l ∈ ls, '\n' ∉ l) →
      (∀ xss, List.Forall₂ Spells ls xss →
        read (List.intercalate ['\n'] ls) = .ok ⟨xss.flatten⟩) ∧
      (∀ before bad after, ls = before ++ bad :: after → (∀ l ∈ before, ¬Spoiled l) →
        Spoiled bad → ∃ cause, read (List.intercalate ['\n'] ls) =
          .error ⟨before.length + 1, cause⟩) ∧
      ∀ l ∈ ls, Spoiled l ↔ ¬∃ xs, Spells l xs := by
  refine ⟨read_render, fun ls hls ↦ ⟨fun xss h ↦ ?_, ?_, fun l _ ↦ spoiled_iff⟩⟩
  · rw [read_intercalate hls, readLines_of_spells h]
    rfl
  · rintro before bad after rfl hbefore hbad
    obtain ⟨cause, hcause⟩ := readLines_of_spoiled (n := 1) after hbefore hbad
    refine ⟨cause, ?_⟩
    rw [read_intercalate hls, hcause, Nat.add_comm]
    rfl

/-- Values on three lines, one of them empty, with signs, marks, underscores and blanks. -/
def mixedLines : List (List Char) :=
  ["0x1F, -A ,,".toList, [], " f_f\t,+0 \r".toList]

theorem read_written_lines_mixed :
    read (List.intercalate ['\n'] mixedLines) = .ok ⟨[.reduce 31, -.reduce 10, .reduce 255, 0]⟩ ∧
      ∃ cause, read (List.intercalate ['\n'] (mixedLines ++ ["7, 12g".toList, "--".toList])) =
        .error ⟨4, cause⟩ := by
  have hspells : List.Forall₂ Spells mixedLines
      [[.reduce 31, -.reduce 10], [], [.reduce 255, 0]] := by
    refine .cons ?_ (.cons spells_nil (.cons ?_ .nil))
    · exact (readLine_eq_ok (n := 1)).mp (by decide +kernel)
    · exact (readLine_eq_ok (n := 3)).mp (by decide +kernel)
  have hgood : ∀ l ∈ mixedLines, ¬Spoiled l := by
    intro l hl
    obtain ⟨xs, -, hxs⟩ := exists_of_forall₂ hspells.flip hl
    exact fun h ↦ spoiled_iff.mp h ⟨xs, hxs⟩
  have hbad : Spoiled "7, 12g".toList :=
    (exists_readLine_error (n := 4)).mp ⟨⟨4, .invalid .hex "12g".toList⟩, by decide +kernel⟩
  constructor
  · exact (read_written_lines.2 mixedLines (by decide +kernel)).1 _ hspells
  · exact (read_written_lines.2 _ (by decide +kernel)).2.1 mixedLines _ _ rfl hgood hbad

end Quadratize.Witness
