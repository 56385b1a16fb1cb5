import Quadratize.Proofs.Circuit.Text

/-!
# Texts in different layouts

A text is a list of lines, each in some layout and with one of two ends.  Lines that declare nothing
may stand anywhere.  Two texts that declare the same one after the other are read as the same
circuit, or for the same reason as none, and a line at fault in one of them corresponds to the line
at fault in the other.
-/

namespace Quadratize

open Text

/-! ## Ended lines -/

namespace Text

variable {text : List Char} {ls : List (List Char)}

/-- Lines one after the other, each with its end, a line feed or a carriage return and a line feed.
The last line may have no end, if it is not empty. -/
inductive Ended : List (List Char) → List Char → Prop
  | nil : Ended [] []
  | last {line : List Char} (hne : line ≠ []) : Ended [line] line
  | feed {line rest : List Char} {ls : List (List Char)} (h : Ended ls rest) :
    Ended (line :: ls) (line ++ '\n' :: rest)
  | returnFeed {line rest : List Char} {ls : List (List Char)} (h : Ended ls rest) :
    Ended (line :: ls) (line ++ '\r' :: '\n' :: rest)

/-- The first line of a text, if its end has a carriage return. -/
theorem lines_append_return {line : List Char} (hline : OneLine line) (rest : List Char) :
    lines (line ++ '\r' :: '\n' :: rest) = line :: lines rest := by
  have hfeed : '\n' ∉ line ++ ['\r'] := by
    rw [List.mem_append, List.mem_singleton]
    rintro (h | h)
    · exact hline.noFeed h
    · cases h
  have hdrop : dropReturn (line ++ ['\r']) = line := by simp [dropReturn]
  have htext : line ++ '\r' :: '\n' :: rest = line ++ ['\r'] ++ '\n' :: rest := by simp
  rw [htext, lines_append_feed hfeed, hdrop]

theorem Ended.flatMap_feed (ls : List (List Char)) : Ended ls (ls.flatMap fun l ↦ l ++ ['\n']) := by
  induction ls with
  | nil => exact .nil
  | cons l ls ih =>
    rw [List.flatMap_cons, List.append_assoc, List.singleton_append]
    exact .feed ih

/-- A text falls back into its lines, whatever their ends are. -/
theorem Ended.lines_eq (h : Ended ls text) (hls : ∀ l ∈ ls, OneLine l) : lines text = ls := by
  induction h with
  | nil => exact lines_nil
  | @last line hne =>
    have hline := hls line List.mem_cons_self
    rw [lines_of_notMem hline.noFeed, if_neg (by simpa using hne)]
  | feed h ih =>
    obtain ⟨hline, hls⟩ := List.forall_mem_cons.mp hls
    rw [lines_append hline, ih hls]
  | returnFeed h ih =>
    obtain ⟨hline, hls⟩ := List.forall_mem_cons.mp hls
    rw [lines_append_return hline, ih hls]

end Text

/-! ## Lines that declare nothing -/

namespace Line

variable {l : Line}

/-- Whether a line states a part of the circuit.  Other lines are blank, are comments, or state the
number of wires. -/
def declares : Line → Bool
  | ⟨none, _⟩ => false
  | ⟨some (.total _), _⟩ => false
  | ⟨some _, _⟩ => true

theorem declared_of_declares_eq_false (h : l.declares = false) : l.declared = .ok .nothing := by
  unfold declares at h
  split at h
  · rfl
  · rfl
  · cases h

/-- What a line adds to the circuit, nothing if the line is at fault. -/
def declaration (l : Line) : Declaration :=
  match l.declared with
  | .ok d => d
  | .error _ => .nothing

theorem declaration_of_declares_eq_false (h : l.declares = false) : l.declaration = .nothing := by
  rw [declaration, declared_of_declares_eq_false h]

/-- The fault of a numbered line. -/
def fault? (p : Line × ℕ) : Option CircuitReadError :=
  match p.1.declared with
  | .ok _ => none
  | .error f => some (.line p.2 f)

end Line

namespace Circuit

variable {L M : List Line} {ls : List (List Char)} {n : ℕ} {s t : List Char}

/-- Lines that are written one after the other, each in its own layout. -/
def Written (L : List Line) (text : List Char) : Prop :=
  ∃ ls, List.Forall₂ Line.Written L ls ∧ Ended ls text

/-- The lines that state parts of the circuit, with their numbers from `n` on. -/
def numberedFrom (n : ℕ) (L : List Line) : List (Line × ℕ) :=
  (L.zipIdx n).filter fun p ↦ p.1.declares

/-- The lines that state parts of the circuit, with their numbers. -/
def numbered (L : List Line) : List (Line × ℕ) :=
  numberedFrom 1 L

theorem map_fst_numberedFrom (n : ℕ) (L : List Line) :
    (numberedFrom n L).map Prod.fst = L.filter Line.declares := by
  have hfst : (L.zipIdx n).map Prod.fst = L := List.zipIdx_map_fst n L
  conv_rhs => rw [← hfst, List.filter_map]
  rfl

/-- Only lines that state parts of the circuit add to it. -/
theorem ofDeclarations_filter (L : List Line) :
    ofDeclarations (L.map Line.declaration) =
      ofDeclarations ((L.filter Line.declares).map Line.declaration) := by
  have hsame {α : Type} {f : Declaration → Option α} (hf : f .nothing = none) :
      (L.map Line.declaration).filterMap f =
        ((L.filter Line.declares).map Line.declaration).filterMap f := by
    rw [List.filterMap_map, List.filterMap_map, List.filterMap_filter]
    refine List.filterMap_congr fun l _ ↦ ?_
    cases hl : l.declares with
    | true => rfl
    | false => rw [Function.comp_apply, Line.declaration_of_declares_eq_false hl, hf]; rfl
  rw [ofDeclarations, ofDeclarations, hsame rfl, hsame rfl, hsame rfl]

/-- A line that declares nothing has no fault, so it can be left out in the search for one. -/
theorem findSome?_numberedFrom_cons (n : ℕ) (l : Line) (L : List Line) :
    (numberedFrom n (l :: L)).findSome? Line.fault? =
      (Line.fault? (l, n)).or ((numberedFrom (n + 1) L).findSome? Line.fault?) := by
  rw [numberedFrom, List.zipIdx_cons, List.filter_cons]
  split
  · rw [List.findSome?_cons]
    cases Line.fault? (l, n) with
    | none => rfl
    | some e => rfl
  · rename_i hdeclares
    have hdeclared := Line.declared_of_declares_eq_false (Bool.eq_false_iff.mpr hdeclares)
    rw [Line.fault?, hdeclared]
    rfl

/-- Written lines are read up to the first one at fault, if there is one. -/
theorem readLines_eq (h : List.Forall₂ Line.Written L ls) (n : ℕ) :
    readLines (ls.zipIdx n) = match (numberedFrom n L).findSome? Line.fault? with
      | some e => .error e
      | none => .ok (L.map Line.declaration) := by
  induction h generalizing n with
  | nil => rfl
  | @cons l cs L ls hl hls ih =>
    rw [List.zipIdx_cons, readLines, hl.read_eq, ih, findSome?_numberedFrom_cons, List.map_cons,
      Line.fault?, Line.declaration]
    cases l.declared with
    | error f => rfl
    | ok d =>
      cases (numberedFrom (n + 1) L).findSome? Line.fault? with
      | none => rfl
      | some e => rfl

/-- Rendering is one of the layouts. -/
theorem written_render {c : Circuit} (h : c.Legible) : Written c.statedLines c.render :=
  ⟨c.textLines, written_textLines h, render_eq c ▸ Ended.flatMap_feed _⟩

/-! ## The same outcome -/

/-- Two texts have the same outcome: a circuit, what is malformed about it, or the fault of a line
in one text and of the corresponding line in the other. -/
inductive SameOutcome (L M : List Line) :
    Except CircuitReadError Circuit → Except CircuitReadError Circuit → Prop
  | circuit (c : Circuit) : SameOutcome L M (.ok c) (.ok c)
  | malformed (cause : Malformed) :
    SameOutcome L M (.error (.malformed cause)) (.error (.malformed cause))
  | line {l : Line} {m n : ℕ} {f : LineFault} (hf : l.declared = .error f)
    (hl : ((l, m), (l, n)) ∈ (numbered L).zip (numbered M)) :
    SameOutcome L M (.error (.line m f)) (.error (.line n f))

theorem SameOutcome.eq_ok {c : Circuit} {x : Except CircuitReadError Circuit}
    (h : SameOutcome L M (.ok c) x) : x = .ok c := by
  cases h
  rfl

/-- Equal lines with different numbers have their first fault at corresponding places. -/
theorem findSome?_fault? {P Q : List (Line × ℕ)} (h : P.map Prod.fst = Q.map Prod.fst) :
    P.findSome? Line.fault? = none ∧ Q.findSome? Line.fault? = none ∨
      ∃ l m n f, l.declared = .error f ∧ ((l, m), (l, n)) ∈ P.zip Q ∧
        P.findSome? Line.fault? = some (.line m f) ∧
        Q.findSome? Line.fault? = some (.line n f) := by
  induction P generalizing Q with
  | nil =>
    obtain rfl : Q = [] := by simpa using h.symm
    exact .inl ⟨rfl, rfl⟩
  | cons p P ih =>
    obtain ⟨l, m⟩ := p
    obtain ⟨⟨l', n⟩, Q, rfl, rfl, hQ⟩ := List.map_eq_cons_iff.mp h.symm
    rw [List.findSome?_cons, List.findSome?_cons, Line.fault?, Line.fault?]
    dsimp only
    cases hl : l'.declared with
    | error f => exact .inr ⟨l', m, n, f, hl, List.mem_cons_self, rfl, rfl⟩
    | ok d =>
      rcases ih hQ.symm with hnone | ⟨k, i, j, f, hk, hmem, hP, hQ⟩
      · exact .inl hnone
      · exact .inr ⟨k, i, j, f, hk, List.mem_cons_of_mem _ hmem, hP, hQ⟩

/-- How a written text is read. -/
theorem read_of_written (h : Written L s) :
    read s = match (numbered L).findSome? Line.fault? with
      | some e => .error e
      | none => do
        let c := ofDeclarations (L.map Line.declaration)
        c.validate.mapError .malformed
        return c := by
  obtain ⟨ls, hls, hended⟩ := h
  have honeLine : ∀ cs ∈ ls, OneLine cs := by
    intro cs hcs
    obtain ⟨l, -, hl⟩ := exists_of_forall₂ hls hcs
    exact hl.oneLine
  rw [read, hended.lines_eq honeLine, readLines_eq hls, numbered]
  cases (numberedFrom 1 L).findSome? Line.fault? with
  | none => rfl
  | some e => rfl

/-- Texts that state the same parts of a circuit in the same order have the same outcome, whatever
their layouts are and whatever blank lines, comments and numbers of wires stand between them. -/
theorem read_relaid (hs : Written L s) (ht : Written M t)
    (h : L.filter Line.declares = M.filter Line.declares) :
    SameOutcome L M (read s) (read t) := by
  have hnumbered : (numbered L).map Prod.fst = (numbered M).map Prod.fst := by
    rw [numbered, numbered, map_fst_numberedFrom, map_fst_numberedFrom, h]
  rw [read_of_written hs, read_of_written ht]
  rcases findSome?_fault? hnumbered with ⟨hL, hM⟩ | ⟨l, m, n, f, hl, hmem, hL, hM⟩
  · have hcircuit : ofDeclarations (L.map Line.declaration) =
        ofDeclarations (M.map Line.declaration) := by
      rw [ofDeclarations_filter, h, ← ofDeclarations_filter]
    rw [hL, hM, hcircuit]
    dsimp only
    cases (ofDeclarations (M.map Line.declaration)).validate with
    | error cause => exact .malformed cause
    | ok => exact .circuit _
  · rw [hL, hM]
    exact .line hl hmem

/-- A circuit with a single gate. -/
def doubling : Circuit where
  inputs := [⟨.first, "one".toList⟩]
  gates := [⟨.add, [.first, .first], [⟨9, by decide⟩], []⟩]
  outputs := [⟨9, by decide⟩]

/-- The parts of the circuit with a comment and a blank line between them. -/
def doublingLines : List Line :=
  [⟨some (.input ['0']), "one".toList⟩, ⟨none, "doubled".toList⟩, ⟨none, []⟩,
    ⟨some (.gate "add".toList ['2'] [['0'], ['0']] ['1'] [['9']]), []⟩, ⟨some (.output ['9']), []⟩]

/-- A text of these lines with other gaps, without some of the brackets, and with both ends of
lines. -/
def doublingText : List Char :=
  "\tinput 0#one \r\n# doubled\n \r\nadd in 2 0 0\tout 1<9>\noutput  9".toList

theorem legible_doubling : doubling.Legible where
  inputs := List.forall_mem_singleton.mpr ⟨.of_any_eq_false rfl, rfl⟩
  gates := List.forall_mem_singleton.mpr ⟨by decide, by decide, isNote_nil, nofun⟩

theorem written_doublingText : Written doublingLines doublingText := by
  have hnil : Formula.IsGaps [] := Formula.isGaps_nil
  have hspace : Formula.IsGaps [' '] := Formula.isGaps_space
  have htab : Formula.IsGaps ['\t'] := List.forall_mem_singleton.mpr rfl
  have hblank : IsBlanks [' '] := List.forall_mem_singleton.mpr rfl
  have hrun {d : Char} (hd : isDigit d = true) : IsRun [d] :=
    ⟨List.cons_ne_nil d [], List.forall_mem_singleton.mpr hd⟩
  have hinput : Line.Written ⟨some (.input ['0']), "one".toList⟩ "\tinput 0#one ".toList :=
    .statement htab (.input hspace (hrun rfl)) (.comment hnil isBlanks_nil isNote_nil.toOneLine
      ⟨.of_any_eq_false rfl, rfl⟩ hblank (.of_any_eq_false rfl))
  have hcomment : Line.Written ⟨none, "doubled".toList⟩ "# doubled".toList :=
    .idle (.comment hnil hblank (.of_any_eq_false rfl) ⟨.of_any_eq_false rfl, rfl⟩ isBlanks_nil
      isNote_nil.toOneLine)
  have hins : Statement.WiresWritten [['0'], ['0']] " 0 0\t".toList :=
    .bare (.cons hspace (List.cons_ne_nil _ _) (hrun rfl)
      (.cons hspace (List.cons_ne_nil _ _) (hrun rfl) (.nil htab)))
  have houts : Statement.WiresWritten [['9']] "<9>".toList :=
    .bracketed hnil (.cons hspace (List.cons_ne_nil _ _) (hrun rfl) (.nil hnil)) hnil
  have hgate : Line.Written ⟨some (.gate "add".toList ['2'] [['0'], ['0']] ['1'] [['9']]), []⟩
      "add in 2 0 0\tout 1<9>".toList :=
    .statement hnil (.gate (List.cons_ne_nil _ _) (List.all_eq_true.mp rfl) hspace
      (List.cons_ne_nil _ _) hspace (hrun rfl) hins hspace (hrun rfl) houts) (.bare hnil)
  have houtput : Line.Written ⟨some (.output ['9']), []⟩ "output  9".toList :=
    .statement hnil (.output (hspace.append hspace) (hrun rfl)) (.bare hnil)
  have hblankLine : Line.Written ⟨none, []⟩ " ".toList := .idle (.bare hspace)
  exact ⟨_, .cons hinput (.cons hcomment (.cons hblankLine (.cons hgate (.cons houtput .nil)))),
    .returnFeed (.feed (.returnFeed (.feed (.last (List.cons_ne_nil _ _)))))⟩

/-- The text in the other layout is read as the circuit, too. -/
theorem read_relaid_doubling :
    SameOutcome doubling.statedLines doublingLines (read doubling.render) (read doublingText) ∧
      read doublingText = .ok doubling := by
  have hsame : SameOutcome doubling.statedLines doublingLines (read doubling.render)
      (read doublingText) :=
    read_relaid (written_render legible_doubling) written_doublingText rfl
  have hvalid : doubling.reread.Valid := validate_eq_ok.mp (by decide)
  refine ⟨hsame, ?_⟩
  rw [read_render legible_doubling hvalid] at hsame
  exact hsame.eq_ok

end Circuit

end Quadratize
