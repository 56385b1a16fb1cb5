import Quadratize.Constraint.Text
import Quadratize.Proofs.Constraint.Verify
import Quadratize.Proofs.Scalar.Literal
import Quadratize.Proofs.Text.Pieces

/-!
# Written constraint systems are read back

A heading stands in front of the rows of each constraint, and reading ends a constraint at every
heading.  So a system is read back without its empty constraints, which leave nothing between two
headings.  What has been read has no empty constraints, so it is read back as it is.
-/

namespace Quadratize

open Text

theorem Sparse.ofTerms_terms {κ : Type} [Key κ] (s : Sparse κ) : ofTerms s.terms = s :=
  ext_of_eval fun r ↦ eval_ofTerms r s.terms

/-! ## Rows -/

namespace Row

variable {r : Row} {c : Char} {n : ℕ}

/-- The text of a term. -/
def term (t : Slot × Scalar) : List Char :=
  decimal t.1.val ++ ':' :: t.2.toSignedHex

theorem notMem_decimal {m : ℕ} (h : digit? 16 c = none) : c ∉ decimal m :=
  notMem_numeral (by decide) (by decide) h m

theorem notMem_term {t : Slot × Scalar} (hmark : c ∉ [':', '-']) (hdigit : digit? 16 c = none) :
    c ∉ term t := by
  simp only [List.mem_cons, List.not_mem_nil, or_false, not_or] at hmark
  simp only [term, List.mem_append, List.mem_cons, not_or]
  exact ⟨notMem_decimal hdigit, hmark.1, Scalar.notMem_toSignedHex hmark.2 hdigit⟩

/-- A row is written with digits, colons, minus signs and commas. -/
theorem notMem_render (hmark : c ∉ [':', '-', ',']) (hdigit : digit? 16 c = none) :
    c ∉ r.render := by
  simp only [List.mem_cons, List.not_mem_nil, or_false, not_or] at hmark
  refine notMem_intercalate hmark.2.2 (List.forall_mem_map.mpr fun t _ ↦ ?_)
  exact notMem_term (by simp [hmark.1, hmark.2.1]) hdigit

theorem isNeat_term (t : Slot × Scalar) : IsNeat (term t) := by
  have h := (IsNeat.decimal t.1.val).append_append [':'] t.2.literal_toSignedHex.isNeat
  rwa [List.append_assoc, List.singleton_append] at h

theorem readTerm_term (t : Slot × Scalar) : readTerm n (term t) = .ok t := by
  have hslot : Slot.read? (decimal t.1.val) = some t.1 := by
    rw [Slot.read?, readBelow?_decimal t.1.isLt]
    exact dif_pos t.1.isLt
  rw [readTerm, term, cut?_append (notMem_decimal rfl)]
  simp only [(IsNeat.decimal t.1.val).trim_eq, hslot, t.2.literal_toSignedHex.read]

theorem read_render (r : Row) : Row.read n r.render = .ok r := by
  have hentries : entries r.render = r.terms.map term :=
    entries_intercalate (List.forall_mem_map.mpr fun t _ ↦ isNeat_term t)
      (List.forall_mem_map.mpr fun t _ ↦ notMem_term (by decide) rfl)
  have hterms : (r.terms.map term).mapM (readTerm n) = .ok r.terms := by
    rw [mapM_eq_ok, List.forall₂_map_left_iff]
    exact List.forall₂_same.mpr fun t _ ↦ readTerm_term t
  rw [Row.read, hentries, hterms, Except.map, Sparse.ofTerms_terms]

end Row

/-! ## Lines -/

namespace RowPair

variable {p : RowPair} {c : Char} {n : ℕ}

/-- The line of a row pair. -/
def line (p : RowPair) : List Char :=
  p.a.render ++ ';' :: p.b.render

theorem notMem_line (hmark : c ∉ [':', '-', ',', ';']) (hdigit : digit? 16 c = none) :
    c ∉ p.line := by
  simp only [List.mem_cons, List.not_mem_nil, or_false, not_or] at hmark
  obtain ⟨hcolon, hminus, hcomma, hsemicolon⟩ := hmark
  have hrow {r : Row} : c ∉ r.render :=
    Row.notMem_render (by simp [hcolon, hminus, hcomma]) hdigit
  simp only [line, List.mem_append, List.mem_cons, not_or]
  exact ⟨hrow, hsemicolon, hrow⟩

theorem isNeat_line (p : RowPair) : IsNeat p.line := by
  refine .of_forall (by simp [line]) fun c hc ↦ ?_
  by_contra hblank
  refine notMem_line (p := p) (fun hmark ↦ hblank ?_) ?_ hc
  · simp only [List.mem_cons, List.not_mem_nil, or_false] at hmark
    rcases hmark with rfl | rfl | rfl | rfl <;> rfl
  · rw [Option.eq_none_iff_forall_ne_some]
    exact fun d hd ↦ hblank (isBlank_of_digit? hd)

theorem oneLine_line (p : RowPair) : OneLine p.line where
  noFeed := notMem_line (by decide) rfl
  noReturn := notMem_line (by decide) rfl

theorem isSeparator_line (p : RowPair) : ConstraintSystem.isSeparator p.line = false := by
  cases hline : p.line with
  | nil => exact absurd hline p.isNeat_line.ne_nil
  | cons c cs =>
    have hne : c ≠ '#' := by
      rintro rfl
      exact notMem_line (p := p) (by decide) rfl (hline ▸ List.mem_cons_self)
    simpa [ConstraintSystem.isSeparator] using hne

theorem read_line (p : RowPair) : RowPair.read n p.line = .ok p := by
  rw [RowPair.read, line, cut?_append (Row.notMem_render (by decide) rfl)]
  exact bind_eq_ok.mpr ⟨p.a, p.a.read_render, bind_eq_ok.mpr ⟨p.b, p.b.read_render, rfl⟩⟩

end RowPair

namespace Constraint

/-- The heading of a constraint. -/
def heading (number : ℕ) : List Char :=
  "# matrix ".toList ++ decimal number

theorem isNeat_heading (number : ℕ) : IsNeat (heading number) :=
  (IsNeat.singleton '#' rfl).append_append " matrix ".toList (.decimal number)

theorem oneLine_heading (number : ℕ) : OneLine (heading number) :=
  .append (.of_any_eq_false rfl) (.decimal number)

/-- The lines of a constraint. -/
def lines (c : Constraint) (number : ℕ) : List (List Char) :=
  heading number :: c.map RowPair.line

theorem render_eq (c : Constraint) (number : ℕ) :
    c.render number = (c.lines number).flatMap fun l ↦ l ++ ['\n'] := by
  have hrows : c.flatMap RowPair.render = (c.map RowPair.line).flatMap fun l ↦ l ++ ['\n'] :=
    flatMap_line (fun p ↦ by simp [RowPair.render, RowPair.line]) c
  unfold render lines heading
  simp only [hrows, List.flatMap_cons, List.append_assoc, List.singleton_append]

end Constraint

namespace ConstraintSystem

variable {s : ConstraintSystem} {n : ℕ}

/-- The first line. -/
def header (s : ConstraintSystem) : List Char :=
  decimal s.numVariables ++ " # num variables/wires".toList

/-- The lines of constraints with numbers from the given one on. -/
def bodyLines (number : ℕ) (cs : List Constraint) : List (List Char) :=
  (cs.zipIdx number).flatMap fun (c, i) ↦ c.lines i

theorem isNeat_header (s : ConstraintSystem) : IsNeat s.header := by
  have hlabel : " # num variables/wires".toList = " # num variables/wire".toList ++ ['s'] := rfl
  rw [header, hlabel, ← List.append_assoc]
  exact (IsNeat.decimal s.numVariables).append_append _ (.singleton 's' rfl)

theorem oneLine_header (s : ConstraintSystem) : OneLine s.header :=
  .append (.decimal s.numVariables) (.of_any_eq_false rfl)

theorem bodyLines_cons (number : ℕ) (c : Constraint) (cs : List Constraint) :
    bodyLines number (c :: cs) = c.lines number ++ bodyLines (number + 1) cs := by
  rw [bodyLines, List.zipIdx_cons, List.flatMap_cons, bodyLines]

theorem render_eq (s : ConstraintSystem) :
    s.render = (s.header :: bodyLines 1 s.constraints).flatMap fun l ↦ l ++ ['\n'] := by
  have hbody : (s.constraints.zipIdx 1).flatMap (fun (c, i) ↦ c.render i) =
      (bodyLines 1 s.constraints).flatMap fun l ↦ l ++ ['\n'] := by
    rw [bodyLines, List.flatMap_assoc]
    exact congrArg (List.flatMap · _) (funext fun (c, i) ↦ c.render_eq i)
  have hlabel : " # num variables/wires\n".toList = " # num variables/wires".toList ++ ['\n'] := rfl
  rw [render, hbody, List.flatMap_cons, header, hlabel]
  simp only [List.append_assoc]

theorem mem_bodyLines {number : ℕ} {cs : List Constraint} {l : List Char}
    (h : l ∈ bodyLines number cs) : (∃ i, l = Constraint.heading i) ∨ ∃ p, l = RowPair.line p := by
  obtain ⟨⟨c, i⟩, -, hl⟩ := List.mem_flatMap.mp h
  rcases List.mem_cons.mp hl with rfl | hl
  · exact .inl ⟨i, rfl⟩
  · obtain ⟨p, -, rfl⟩ := List.mem_map.mp hl
    exact .inr ⟨p, rfl⟩

/-- Every line of the text is trimmed already. -/
theorem lines_render (s : ConstraintSystem) :
    (Text.lines s.render).map trim = s.header :: bodyLines 1 s.constraints := by
  have hbody : ∀ l ∈ bodyLines 1 s.constraints, IsNeat l ∧ OneLine l := by
    intro l hl
    rcases mem_bodyLines hl with ⟨i, rfl⟩ | ⟨p, rfl⟩
    · exact ⟨Constraint.isNeat_heading i, Constraint.oneLine_heading i⟩
    · exact ⟨p.isNeat_line, p.oneLine_line⟩
  have hall : ∀ l ∈ s.header :: bodyLines 1 s.constraints, IsNeat l ∧ OneLine l :=
    List.forall_mem_cons.mpr ⟨⟨s.isNeat_header, s.oneLine_header⟩, hbody⟩
  rw [render_eq, lines_flatMap fun l hl ↦ (hall l hl).2]
  exact (List.map_congr_left fun l hl ↦ (hall l hl).1.trim_eq).trans (List.map_id _)

/-! ## Reading lines -/

theorem countText_header (s : ConstraintSystem) : countText s.header = decimal s.numVariables := by
  have hplain : ∀ c ∈ decimal s.numVariables ++ [' '], (c != '#') = true := by
    intro c hc
    rcases List.mem_append.mp hc with hc | hc
    · exact bne_iff_ne.mpr fun h ↦ Row.notMem_decimal rfl (h ▸ hc)
    · rw [List.mem_singleton.mp hc]
      rfl
  have hheader :
      s.header = (decimal s.numVariables ++ [' ']) ++ "# num variables/wires".toList := by
    rw [List.append_assoc]
    rfl
  have hstop : Stops (· != '#') "# num variables/wires".toList := Stops.cons_iff.mpr rfl
  rw [countText, hheader, hstop.takeWhile_append hplain]
  exact (IsNeat.decimal s.numVariables).trim_blanks isBlanks_nil
    (List.forall_mem_singleton.mpr rfl)

/-- Rows come in front of the constraint that the lines after them go on with. -/
theorem readRows_rows {c rows : Constraint} {rest : List (List Char)} {later : List Constraint}
    (h : readRows (rest.zipIdx (n + c.length)) = .ok (rows, later)) :
    readRows ((c.map RowPair.line ++ rest).zipIdx n) = .ok (c ++ rows, later) := by
  induction c generalizing n with
  | nil => exact h
  | cons p c ih =>
    have hrest : readRows ((c.map RowPair.line ++ rest).zipIdx (n + 1)) = .ok (c ++ rows, later) :=
      ih (by rwa [Nat.add_assoc, Nat.add_comm 1])
    rw [List.map_cons, List.cons_append, List.zipIdx_cons, readRows, p.isSeparator_line]
    exact bind_eq_ok.mpr ⟨p, p.read_line, bind_eq_ok.mpr ⟨_, hrest, rfl⟩⟩

/-- Every heading closes the constraint before it, unless it has no rows. -/
theorem readRows_bodyLines (number : ℕ) (cs : List Constraint) :
    readRows ((bodyLines number cs).zipIdx n) = .ok ([], cs.filter (!·.isEmpty)) := by
  induction cs generalizing number n with
  | nil => rfl
  | cons c cs ih =>
    have hrows := readRows_rows (n := n + 1) (c := c) (ih (number + 1))
    rw [List.append_nil] at hrows
    rw [bodyLines_cons, Constraint.lines, List.cons_append, List.zipIdx_cons, readRows]
    refine bind_eq_ok.mpr ⟨_, hrows, ?_⟩
    cases c with
    | nil => rfl
    | cons p c => rfl

theorem read_render_filter (h : s.numVariables < countLimit) :
    read s.render = .ok { s with constraints := s.constraints.filter (!·.isEmpty) } := by
  have hheader : ∃ c cs, s.header = c :: cs := List.exists_cons_of_ne_nil s.isNeat_header.ne_nil
  have hdrop : (((Text.lines s.render).map trim).zipIdx 1).dropWhile (·.1.isEmpty) =
      (s.header, 1) :: (bodyLines 1 s.constraints).zipIdx 2 := by
    obtain ⟨c, cs, hheader⟩ := hheader
    rw [lines_render, List.zipIdx_cons, hheader]
    rfl
  rw [read, hdrop]
  simp only [countText_header, readBelow?_decimal h, readRows_bodyLines]
  rfl

theorem nonempty_of_mem_close {rows c : Constraint} {rest : List Constraint}
    (hrest : ∀ c ∈ rest, c ≠ []) (h : c ∈ close rows rest) : c ≠ [] := by
  unfold close at h
  split_ifs at h with hrows
  · exact hrest c h
  · rcases List.mem_cons.mp h with rfl | h
    · simpa using hrows
    · exact hrest c h

theorem nonempty_of_readRows {ls : List (List Char × ℕ)} {rows : Constraint}
    {later : List Constraint} (h : readRows ls = .ok (rows, later)) : ∀ c ∈ later, c ≠ [] := by
  induction ls generalizing rows later with
  | nil =>
    cases h
    exact List.forall_mem_nil _
  | cons l ls ih =>
    rw [readRows] at h
    split_ifs at h
    · obtain ⟨⟨rows', later'⟩, hrest, h⟩ := bind_eq_ok.mp h
      cases h
      exact fun c ↦ nonempty_of_mem_close (ih hrest)
    · obtain ⟨p, -, h⟩ := bind_eq_ok.mp h
      obtain ⟨⟨rows', later'⟩, hrest, h⟩ := bind_eq_ok.mp h
      cases h
      exact ih hrest

/-- What has been read counts its slots by a word and has no empty constraint. -/
theorem nonempty_of_read {text : List Char} (h : read text = .ok s) :
    s.numVariables < countLimit ∧ ∀ c ∈ s.constraints, c ≠ [] := by
  unfold read at h
  split at h
  · cases h
  split at h
  · cases h
  · rename_i hcount
    obtain ⟨⟨rows, later⟩, hbody, h⟩ := bind_eq_ok.mp h
    cases h
    exact ⟨lt_of_readBelow? hcount, fun c ↦ nonempty_of_mem_close (nonempty_of_readRows hbody)⟩

theorem read_render_of_nonempty (hcount : s.numVariables < countLimit)
    (h : ∀ c ∈ s.constraints, c ≠ []) : read s.render = .ok s := by
  have hfilter : s.constraints.filter (!·.isEmpty) = s.constraints :=
    List.filter_eq_self.mpr fun c hc ↦ by simpa using h c hc
  rw [read_render_filter hcount, hfilter]

/-- A system whose slots are counted by a word is read back from its text without its empty
constraints, so a valid one is read back as it is.  What has been read from any text is read back
as it is, too. -/
theorem read_render_nonempty (s : ConstraintSystem) :
    (s.numVariables < countLimit →
      read s.render = .ok { s with constraints := s.constraints.filter (!·.isEmpty) } ∧
        (s.validate = .ok () → read s.render = .ok s)) ∧
      ∀ text, read text = .ok s → read s.render = .ok s := by
  refine ⟨fun hcount ↦ ⟨read_render_filter hcount, fun hvalid ↦ ?_⟩, fun text htext ↦ ?_⟩
  · exact read_render_of_nonempty hcount (validate_eq_ok.mp hvalid).nonempty
  · obtain ⟨hcount, hne⟩ := nonempty_of_read htext
    exact read_render_of_nonempty hcount hne

/-- Constraints without rows around two others, one of which has a pair of zero rows and a row with
the last slot. -/
def gappySystem : ConstraintSystem where
  numVariables := 4
  constraints :=
    [[], [⟨0, 0⟩, ⟨.ofTerms [(0, -1), (4294967295, .reduce 18)], .single 3 1⟩], [],
      [⟨.single 2 1, 0⟩], []]

/-- The constraints with rows, over all slots. -/
def fullSystem : ConstraintSystem :=
  ⟨slotLimit, gappySystem.constraints.filter (!·.isEmpty)⟩

/-- Comments and blank lines around the rows, and terms that are added up. -/
def looseText : List Char :=
  "\n 3 # slots\n;0:1\n\n# next\n 1 : 0x2,, +1:-2 ,2:f_f;0:1 \r\n0:-1;".toList

theorem read_render_nonempty_gappySystem :
    (gappySystem.numVariables < countLimit ∧
        read gappySystem.render = .ok ⟨4, gappySystem.constraints.filter (!·.isEmpty)⟩) ∧
      (fullSystem.validate = .ok () ∧ read fullSystem.render = .ok fullSystem) ∧
      ∃ s, read looseText = .ok s ∧ s.numRows = 3 ∧ read s.render = .ok s := by
  have hcount : gappySystem.numVariables < countLimit := by decide
  have hvalid : fullSystem.validate = .ok () := by decide +kernel
  obtain ⟨s, hread, hrows⟩ := exists_ok_of_any (x := read looseText)
    (P := fun s ↦ decide (s.numRows = 3)) (by decide +kernel)
  refine ⟨⟨hcount, ?_⟩, ⟨hvalid, ?_⟩, s, hread, of_decide_eq_true hrows, ?_⟩
  · exact ((read_render_nonempty gappySystem).1 hcount).1
  · exact ((read_render_nonempty fullSystem).1 (by decide)).2 hvalid
  · exact (read_render_nonempty s).2 looseText hread

end ConstraintSystem

end Quadratize
