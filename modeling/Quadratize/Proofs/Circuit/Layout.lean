import Quadratize.Circuit.Text
import Quadratize.Proofs.Formula.Token
import Quadratize.Proofs.Text.Lines

/-!
# The layout of a line

The parts of a line may have gaps between them, wire lists may stand in brackets, and notes may have
blanks around them.  A scanner looks at its text behind the gaps at the start, so each part of a
line is split off, up to gaps at the start of the rest, and the line is read as what it states
however it is laid out.  Only a gate whose kind starts like another statement cannot be read, and
this holds in every layout, too.
-/

namespace Quadratize

open Text
open Formula (IsGaps)

/-! ## Gaps at the start -/

namespace Text

variable {cs ds g rest : List Char} {wires : List (List Char)}

theorem skipGaps_append (hg : IsGaps g) (cs : List Char) : skipGaps (g ++ cs) = skipGaps cs :=
  List.dropWhile_append_of_pos hg

theorem skipGaps_of_isGaps (hg : IsGaps g) : skipGaps g = [] :=
  List.dropWhile_eq_nil_iff.mpr hg

theorem keyword?_congr (h : skipGaps cs = skipGaps ds) (word : String) :
    keyword? word cs = keyword? word ds := by
  rw [keyword?, keyword?, h]

theorem number?_congr (h : skipGaps cs = skipGaps ds) : number? cs = number? ds := by
  rw [number?, number?, h]

/-- A text that does not start with the first character of a word does not start with the word. -/
theorem keyword?_eq_none {word : String} {c : Char} {w : List Char} (hword : word.toList = c :: w)
    (h : Stops (· == c) (skipGaps cs)) : keyword? word cs = none := by
  rw [keyword?, hword]
  cases hcs : skipGaps cs with
  | nil => rfl
  | cons d ds =>
    rw [hcs] at h
    have hne : (c == d) = false := by
      rw [beq_eq_false_iff_ne]
      have hdc := Stops.cons_iff.mp h
      exact fun he ↦ by simp [he] at hdc
    simp [List.isPrefixOf?, hne]

theorem number?_eq_none (h : Stops isDigit (skipGaps cs)) : number? cs = none := by
  rw [number?]
  cases hcs : skipGaps cs with
  | nil => rfl
  | cons c ds =>
    rw [hcs] at h
    simp [Stops.cons_iff.mp h]

/-- A text starts with a gap or at its first character behind gaps. -/
theorem Stops.of_skipGaps (h : Stops isDigit (skipGaps cs)) : Stops isDigit cs := by
  cases cs with
  | nil => exact nil
  | cons c cs =>
    by_cases hc : isGap c = true
    · have hgaps : IsGaps [c] := List.forall_mem_singleton.mpr hc
      exact cons_iff.mpr (cons_iff.mp hgaps.stops)
    · rwa [skipGaps, List.dropWhile_cons_of_neg hc] at h

/-- The blanks around a note are dropped. -/
theorem IsNote.trim_blanks {note pre post : List Char} (h : IsNote note) (hpre : IsBlanks pre)
    (hpost : IsBlanks post) : trim (pre ++ (note ++ post)) = note := by
  by_cases hnil : note = []
  · rw [hnil, trim_eq_nil]
    exact List.forall_mem_append.mpr ⟨hpre, hpost⟩
  · have hneat : IsNeat note := h.trimmed ▸ isNeat_trim (h.trimmed.symm ▸ hnil)
    exact hneat.trim_blanks hpre hpost

/-- Runs of digits with a gap in front of each, and maybe gaps at the end. -/
inductive Spread : List (List Char) → List Char → Prop
  | nil {gap : List Char} (hgap : IsGaps gap) : Spread [] gap
  | cons {gap ds cs : List Char} {wires : List (List Char)} (hgap : IsGaps gap) (hne : gap ≠ [])
    (hds : IsRun ds) (h : Spread wires cs) : Spread (ds :: wires) (gap ++ (ds ++ cs))

namespace Spread

theorem stops (h : Spread wires cs) : Stops isDigit cs := by
  cases h with
  | nil hgap => exact hgap.stops
  | cons hgap hne => exact hgap.stops.append_of_ne_nil hne

theorem stops_append (h : Spread wires cs) (hrest : Stops isDigit rest) :
    Stops isDigit (cs ++ rest) :=
  h.stops.append hrest

/-- Nothing but a digit can come first behind the gaps, apart from what follows. -/
theorem stops_skipGaps {p : Char → Bool} (h : Spread wires cs)
    (hp : ∀ c, isDigit c = true → p c = false) (hrest : Stops p (skipGaps rest)) :
    Stops p (skipGaps (cs ++ rest)) := by
  cases h with
  | nil hgap => rwa [skipGaps_append hgap]
  | cons hgap _ hds =>
    obtain ⟨c, ds, rfl, hc, -⟩ := hds.exists_eq_cons
    rw [List.append_assoc, skipGaps_append hgap, List.cons_append, List.cons_append, skipGaps,
      List.dropWhile_cons_of_neg (by simp [isGap_of_isDigit hc])]
    exact Stops.cons_iff.mpr (hp c hc)

/-- Spread runs are read back one by one, and gaps at most are left in front of the rest. -/
theorem numbers_append (h : Spread wires cs) (hrest : Stops isDigit (skipGaps rest)) :
    (numbers (cs ++ rest)).1 = wires ∧ skipGaps (numbers (cs ++ rest)).2 = skipGaps rest := by
  induction h with
  | nil hgap =>
    rw [numbers_of_number?_none (number?_eq_none ((skipGaps_append hgap rest).symm ▸ hrest))]
    exact ⟨rfl, skipGaps_append hgap rest⟩
  | @cons gap ds cs wires hgap _ hds hcs ih =>
    have hnumber : number? (gap ++ (ds ++ cs) ++ rest) = some (ds, cs ++ rest) := by
      rw [List.append_assoc, List.append_assoc, number?_congr (skipGaps_append hgap _)]
      exact hds.number?_append (hcs.stops_append hrest.of_skipGaps)
    rw [numbers_of_number? hnumber]
    exact ⟨congrArg (ds :: ·) ih.1, ih.2⟩

end Spread

/-- A space in front does not change what runs are read. -/
theorem numbers_space (cs : List Char) : (numbers (' ' :: cs)).1 = (numbers cs).1 ∧
    skipGaps (numbers (' ' :: cs)).2 = skipGaps (numbers cs).2 := by
  cases h : number? cs with
  | none =>
    rw [numbers_of_number?_none h, numbers_of_number?_none ((number?_space cs).trans h)]
    exact ⟨rfl, rfl⟩
  | some p =>
    rw [numbers_of_number? h, numbers_of_number? ((number?_space cs).trans h)]
    exact ⟨rfl, rfl⟩

end Text

/-! ## Statements as they are written -/

namespace Statement

variable {cs ds gap kind rest tail : List Char} {wires : List (List Char)} {s : Statement}

/-- A wire list as it is written, bare or in brackets; behind a bracket no gap is needed. -/
inductive WiresWritten : List (List Char) → List Char → Prop
  | bare {wires : List (List Char)} {cs : List Char} (h : Spread wires cs) : WiresWritten wires cs
  | bracketed {wires : List (List Char)} {before cs after : List Char} (hbefore : IsGaps before)
    (h : Spread wires (' ' :: cs)) (hafter : IsGaps after) :
    WiresWritten wires (before ++ '<' :: (cs ++ '>' :: after))

/-- A statement as it is written.  Gaps may stand between any two parts, and they do stand where two
parts would run into each other. -/
inductive Written : Statement → List Char → Prop
  | total {gap ds : List Char} (hgap : IsGaps gap) (hds : IsRun ds) :
    Written (.total ds) ("total".toList ++ (gap ++ ds))
  | input {gap ds : List Char} (hgap : IsGaps gap) (hds : IsRun ds) :
    Written (.input ds) ("input".toList ++ (gap ++ ds))
  | output {gap ds : List Char} (hgap : IsGaps gap) (hds : IsRun ds) :
    Written (.output ds) ("output".toList ++ (gap ++ ds))
  | gate {kind gap inGap inCount inText outGap outCount outText : List Char}
    {ins outs : List (List Char)} (hkind : kind ≠ []) (hchars : ∀ c ∈ kind, isKindChar c = true)
    (hgap : IsGaps gap) (hne : gap ≠ []) (hinGap : IsGaps inGap) (hinCount : IsRun inCount)
    (hins : WiresWritten ins inText) (houtGap : IsGaps outGap) (houtCount : IsRun outCount)
    (houts : WiresWritten outs outText) :
    Written (.gate kind inCount ins outCount outs)
      (kind ++ (gap ++ ("in".toList ++ (inGap ++ (inCount ++ (inText ++
        ("out".toList ++ (outGap ++ (outCount ++ outText)))))))))

/-! ### Parts of a statement -/

theorem stops_isGap_of_isKindChar {cs rest : List Char} (hne : cs ≠ [])
    (hcs : ∀ c ∈ cs, isKindChar c = true) : Stops isGap (cs ++ rest) := by
  obtain ⟨c, cs, rfl⟩ := List.exists_cons_of_ne_nil hne
  exact Stops.cons_iff.mpr (isGap_eq_false (p := isKindChar) rfl rfl (hcs c List.mem_cons_self))

/-- The kind of a gate is split off whole. -/
theorem kind?_append {kind rest : List Char} (hne : kind ≠ [])
    (hkind : ∀ c ∈ kind, isKindChar c = true) (hrest : Stops isKindChar rest) :
    kind? (kind ++ rest) = some (kind, rest) := by
  have hgaps : skipGaps (kind ++ rest) = kind ++ rest :=
    (stops_isGap_of_isKindChar hne hkind).dropWhile_eq
  rw [kind?, hgaps, hrest.takeWhile_append hkind, hrest.dropWhile_append hkind]
  obtain ⟨c, cs, rfl⟩ := List.exists_cons_of_ne_nil hne
  rfl

theorem kind?_congr (h : skipGaps cs = skipGaps ds) : kind? cs = kind? ds := by
  rw [kind?, kind?, h]

theorem counted?_congr (h : skipGaps cs = skipGaps ds) (word : String) :
    counted? word cs = counted? word ds := by
  rw [counted?, counted?, keyword?_congr h]

theorem gate?_congr (h : skipGaps cs = skipGaps ds) : gate? cs = gate? ds := by
  rw [gate?, gate?, kind?_congr h]

theorem scan?_congr (h : skipGaps cs = skipGaps ds) : scan? cs = scan? ds := by
  rw [scan?, scan?, counted?_congr h, counted?_congr h, counted?_congr h, gate?_congr h]

theorem counted?_of_keyword? {word : String} (hword : keyword? word cs = some (gap ++ (ds ++ rest)))
    (hgap : IsGaps gap) (hds : IsRun ds) (hrest : Stops isDigit rest) :
    counted? word cs = some (ds, rest) := by
  rw [counted?, hword, Option.bind_eq_bind, Option.bind_some,
    number?_congr (skipGaps_append hgap _)]
  exact hds.number?_append hrest

theorem WiresWritten.stops (h : WiresWritten wires cs) (hrest : Stops isDigit (skipGaps rest)) :
    Stops isDigit (cs ++ rest) := by
  cases h with
  | bare h => exact h.stops_append hrest.of_skipGaps
  | bracketed hbefore =>
    rw [List.append_assoc]
    exact hbefore.stops.append (Stops.cons_iff.mpr rfl)

/-- A wire list is split off, with or without brackets, if nothing follows that could belong to
it. -/
theorem WiresWritten.wires?_append (h : WiresWritten wires cs)
    (hdigit : Stops isDigit (skipGaps rest)) (hopen : Stops (· == '<') (skipGaps rest)) :
    ∃ rest', wires? (cs ++ rest) = some (wires, rest') ∧ skipGaps rest' = skipGaps rest := by
  cases h with
  | bare h =>
    have hbare : keyword? "<" (cs ++ rest) = none := by
      refine keyword?_eq_none rfl (h.stops_skipGaps (fun c hc ↦ ?_) hopen)
      rw [beq_eq_false_iff_ne]
      rintro rfl
      cases hc
    obtain ⟨hwires, hrest⟩ := h.numbers_append hdigit
    refine ⟨(numbers (cs ++ rest)).2, ?_, hrest⟩
    rw [wires?, hbare, ← hwires]
  | @bracketed before cs after hbefore h hafter =>
    have hopen : keyword? "<" (before ++ '<' :: (cs ++ '>' :: after) ++ rest) =
        some (cs ++ '>' :: (after ++ rest)) := by
      rw [List.append_assoc, keyword?_congr (skipGaps_append hbefore _), List.cons_append,
        List.append_assoc]
      rfl
    have hclose : Stops isDigit (skipGaps ('>' :: (after ++ rest))) := Stops.cons_iff.mpr rfl
    obtain ⟨hwires, hrest⟩ := h.numbers_append hclose
    rw [List.cons_append, (numbers_space _).1] at hwires
    rw [List.cons_append, (numbers_space _).2] at hrest
    refine ⟨after ++ rest, ?_, skipGaps_append hafter rest⟩
    rw [wires?, hopen]
    dsimp only
    rw [keyword?_congr hrest, hwires]
    rfl

/-! ### Kinds that start like another statement -/

/-- Whether the kind of a gate starts with a keyword and a digit, so that it is taken for another
statement. -/
def startsLike (kind : List Char) (word : String) : Bool :=
  match word.toList.isPrefixOf? kind with
  | some (c :: _) => isDigit c
  | _ => false

theorem startsLike_eq_false {word : String} (h : word.toList.isPrefixOf? kind = none) :
    startsLike kind word = false := by
  rw [startsLike, h]

/-- Whether a statement is taken for another one. -/
def clashes : Statement → Bool
  | gate kind .. => ["total", "input", "output"].any (startsLike kind)
  | _ => false

/-- What comes first behind the gaps is a character of a kind. -/
def LeadsOn (cs : List Char) : Prop :=
  ∃ c ds, skipGaps cs = c :: ds ∧ isKindChar c = true

theorem isGap_of_isKindChar {c : Char} (h : isKindChar c = true) : isGap c = false :=
  isGap_eq_false (p := isKindChar) rfl rfl h

theorem LeadsOn.append (hcs : ∀ c ∈ cs, isKindChar c = true) (h : LeadsOn tail) :
    LeadsOn (cs ++ tail) := by
  cases cs with
  | nil => exact h
  | cons c cs =>
    have hc := hcs c List.mem_cons_self
    exact ⟨c, cs ++ tail, List.dropWhile_cons_of_neg (by simp [isGap_of_isKindChar hc]), hc⟩

/-- Such a text is no comment, and the line does not end there. -/
theorem LeadsOn.comment? (h : LeadsOn cs) : Line.comment? cs = none := by
  obtain ⟨c, ds, hcs, hc⟩ := h
  rw [Line.comment?, hcs]
  split
  · rename_i heq
    cases heq
  · rename_i heq
    cases heq
    cases hc
  · rfl

theorem isPrefixOf?_append {word : List Char} (h : ∀ c ∈ tail.head?, c ∉ word) :
    word.isPrefixOf? (kind ++ tail) = (word.isPrefixOf? kind).map (· ++ tail) := by
  induction word generalizing kind with
  | nil => rfl
  | cons d word ih =>
    have hword : ∀ c ∈ tail.head?, c ∉ word := fun c hc hmem ↦ h c hc (List.mem_cons_of_mem _ hmem)
    cases kind with
    | nil =>
      cases tail with
      | nil => rfl
      | cons c tail =>
        have hne : (d == c) = false := by
          rw [beq_eq_false_iff_ne]
          exact fun he ↦ h c rfl (he ▸ List.mem_cons_self)
        simp [List.isPrefixOf?, hne]
    | cons c kind =>
      rw [List.cons_append, List.isPrefixOf?, List.isPrefixOf?]
      split
      · exact ih hword
      · rfl

/-- No keyword is longer than what it has in common with the kind in front of a gap. -/
theorem keyword?_kind {word : String} (hword : word.toList.any isGap = false)
    (hchars : ∀ c ∈ kind, isKindChar c = true) (hkind : kind ≠ []) (hgap : IsGaps gap)
    (hne : gap ≠ []) (rest : List Char) : keyword? word (kind ++ (gap ++ rest)) =
      (word.toList.isPrefixOf? kind).map (· ++ (gap ++ rest)) := by
  obtain ⟨c, gap, rfl⟩ := List.exists_cons_of_ne_nil hne
  have hskip : skipGaps (kind ++ (c :: gap ++ rest)) = kind ++ (c :: gap ++ rest) :=
    (stops_isGap_of_isKindChar hkind hchars).dropWhile_eq
  rw [keyword?, hskip]
  refine isPrefixOf?_append fun d hd hmem ↦ ?_
  obtain rfl := Option.some.inj hd
  exact List.any_eq_false.mp hword c hmem (hgap c List.mem_cons_self)

theorem LeadsOn.dropDigits (hcs : ∀ c ∈ cs, isKindChar c = true) (hstops : Stops isDigit tail)
    (h : LeadsOn tail) : LeadsOn ((cs ++ tail).dropWhile isDigit) := by
  rw [List.dropWhile_append]
  split
  · rwa [hstops.dropWhile_eq]
  · exact h.append fun c hc ↦ hcs c ((List.dropWhile_sublist isDigit).subset hc)

/-- A kind in front of other text gives another statement exactly if it starts like one, and then
the line goes on behind that statement. -/
theorem counted?_kind {word : String} (hword : word.toList.any isGap = false)
    (hchars : ∀ c ∈ kind, isKindChar c = true) (hkind : kind ≠ []) (hgap : IsGaps gap)
    (hne : gap ≠ []) (hdigit : Stops isDigit (skipGaps rest)) (hlead : LeadsOn rest) :
    if startsLike kind word then
      ∃ n rest', counted? word (kind ++ (gap ++ rest)) = some (n, rest') ∧
        Line.comment? rest' = none
    else counted? word (kind ++ (gap ++ rest)) = none := by
  have hleadGap : LeadsOn (gap ++ rest) := by rwa [LeadsOn, skipGaps_append hgap]
  rw [counted?, keyword?_kind hword hchars hkind hgap hne, startsLike]
  cases hsuffix : word.toList.isPrefixOf? kind with
  | none => exact if_neg Bool.false_ne_true ▸ rfl
  | some suffix =>
    have hsub : ∀ c ∈ suffix, isKindChar c = true := by
      intro c hc
      rw [List.isPrefixOf?_eq_some_iff_append_eq] at hsuffix
      exact hchars c (hsuffix ▸ List.mem_append_right _ hc)
    rw [Option.map_some, Option.bind_eq_bind, Option.bind_some]
    cases suffix with
    | nil =>
      refine (if_neg Bool.false_ne_true).mpr (number?_eq_none ?_)
      rwa [List.nil_append, skipGaps_append hgap]
    | cons c suffix =>
      obtain ⟨hc, hsuffix⟩ := List.forall_mem_cons.mp hsub
      have hskip : skipGaps (c :: suffix ++ (gap ++ rest)) = c :: (suffix ++ (gap ++ rest)) :=
        List.dropWhile_cons_of_neg (by simp [isGap_of_isKindChar hc])
      rw [number?, hskip]
      dsimp only
      split
      · exact ⟨_, _, rfl,
          (hleadGap.dropDigits hsuffix (hgap.stops.append_of_ne_nil hne)).comment?⟩
      · rfl

/-- A gate is split off, whatever its layout. -/
theorem Written.gate?_append {inCount outCount : List Char} {ins outs : List (List Char)}
    (h : Written (.gate kind inCount ins outCount outs) cs) (hdigit : Stops isDigit (skipGaps rest))
    (hopen : Stops (· == '<') (skipGaps rest)) :
    ∃ rest', gate? (cs ++ rest) = some (.gate kind inCount ins outCount outs, rest') ∧
      skipGaps rest' = skipGaps rest := by
  cases h with
  | @gate _ gap inGap _ inText outGap _ outText _ _ hkind hchars hgap hne hinGap hinCount hins
      houtGap houtCount houts =>
    -- The texts that are left behind the kind and behind the inputs.
    let outRest := "out".toList ++ (outGap ++ (outCount ++ (outText ++ rest)))
    let inRest := "in".toList ++ (inGap ++ (inCount ++ (inText ++ outRest)))
    have htext : kind ++ (gap ++ ("in".toList ++ (inGap ++ (inCount ++ (inText ++
        ("out".toList ++ (outGap ++ (outCount ++ outText)))))))) ++ rest =
        kind ++ (gap ++ inRest) := by
      simp only [inRest, outRest, List.append_assoc]
    have hstop : Stops isKindChar (gap ++ inRest) := by
      obtain ⟨c, gap, rfl⟩ := List.exists_cons_of_ne_nil hne
      have hc := hgap c List.mem_cons_self
      refine Stops.cons_iff.mpr (Bool.eq_false_iff.mpr fun hkindChar ↦ ?_)
      rw [isGap_of_isKindChar hkindChar] at hc
      cases hc
    have hdigitOut : Stops isDigit (skipGaps outRest) := Stops.cons_iff.mpr rfl
    have hopenOut : Stops (· == '<') (skipGaps outRest) := Stops.cons_iff.mpr rfl
    have hin : counted? "in" (gap ++ inRest) = some (inCount, inText ++ outRest) := by
      rw [counted?_congr (skipGaps_append hgap inRest)]
      exact counted?_of_keyword? rfl hinGap hinCount (hins.stops hdigitOut)
    obtain ⟨rest₁, hwires₁, hrest₁⟩ := hins.wires?_append hdigitOut hopenOut
    have hout : counted? "out" rest₁ = some (outCount, outText ++ rest) := by
      rw [counted?_congr hrest₁]
      exact counted?_of_keyword? rfl houtGap houtCount (houts.stops hdigit)
    obtain ⟨rest₂, hwires₂, hrest₂⟩ := houts.wires?_append hdigit hopen
    refine ⟨rest₂, ?_, hrest₂⟩
    rw [htext, gate?, kind?_append hkind hchars hstop]
    simp only [Option.bind_eq_bind, Option.bind_some, hin, hwires₁, hout, hwires₂]
    rfl

/-- What the scanner finds at the start of a gate that does or does not clash. -/
theorem Written.counted?_gate {inCount outCount : List Char} {ins outs : List (List Char)}
    (h : Written (.gate kind inCount ins outCount outs) cs) (word : String)
    (hword : word.toList.any isGap = false) (rest : List Char) :
    if startsLike kind word then
      ∃ n rest', counted? word (cs ++ rest) = some (n, rest') ∧ Line.comment? rest' = none
    else counted? word (cs ++ rest) = none := by
  cases h with
  | gate hkind hchars hgap hne =>
    simp only [List.append_assoc]
    exact counted?_kind hword hchars hkind hgap hne (Stops.cons_iff.mpr rfl) ⟨'i', _, rfl, rfl⟩

/-- A word and a number are split off. -/
theorem counted?_word {word : String} (hgap : IsGaps gap) (hds : IsRun ds)
    (hword : keyword? word (word.toList ++ (gap ++ (ds ++ rest))) = some (gap ++ (ds ++ rest)))
    (hrest : Stops isDigit (skipGaps rest)) :
    counted? word (word.toList ++ (gap ++ ds) ++ rest) = some (ds, rest) := by
  rw [List.append_assoc, List.append_assoc]
  exact counted?_of_keyword? hword hgap hds hrest.of_skipGaps

/-- No other statement is found at the start of a gate that does not clash. -/
theorem Written.counted?_gate_eq_none {inCount outCount : List Char} {ins outs : List (List Char)}
    (h : Written (.gate kind inCount ins outCount outs) cs)
    (hclash : (Statement.gate kind inCount ins outCount outs).clashes = false) (rest : List Char)
    {word : String} (hword : word ∈ ["total", "input", "output"]) :
    counted? word (cs ++ rest) = none := by
  have hgaps : word.toList.any isGap = false := by
    obtain rfl | rfl | rfl : word = "total" ∨ word = "input" ∨ word = "output" := by
      simpa using hword
    · rfl
    · rfl
    · rfl
  have hlike : ¬startsLike kind word = true := List.any_eq_false.mp hclash word hword
  have hcounted := h.counted?_gate word hgaps rest
  rwa [if_neg hlike] at hcounted

/-- A statement that is not taken for another one is split off, whatever its layout. -/
theorem Written.scan?_append (h : Written s cs) (hclash : s.clashes = false)
    (hdigit : Stops isDigit (skipGaps rest)) (hopen : Stops (· == '<') (skipGaps rest)) :
    ∃ rest', scan? (cs ++ rest) = some (s, rest') ∧ skipGaps rest' = skipGaps rest := by
  cases h with
  | @total gap ds hgap hds =>
    have hcount : counted? "total" ("total".toList ++ (gap ++ ds) ++ rest) = some (ds, rest) :=
      counted?_word hgap hds rfl hdigit
    exact ⟨rest, by rw [scan?, hcount], rfl⟩
  | @input gap ds hgap hds =>
    have htotal : counted? "total" ("input".toList ++ (gap ++ ds) ++ rest) = none := rfl
    have hcount : counted? "input" ("input".toList ++ (gap ++ ds) ++ rest) = some (ds, rest) :=
      counted?_word hgap hds rfl hdigit
    exact ⟨rest, by rw [scan?, htotal]; dsimp only; rw [hcount], rfl⟩
  | @output gap ds hgap hds =>
    have htotal : counted? "total" ("output".toList ++ (gap ++ ds) ++ rest) = none := rfl
    have hinput : counted? "input" ("output".toList ++ (gap ++ ds) ++ rest) = none := rfl
    have hcount : counted? "output" ("output".toList ++ (gap ++ ds) ++ rest) = some (ds, rest) :=
      counted?_word hgap hds rfl hdigit
    exact ⟨rest, by rw [scan?, htotal]; dsimp only; rw [hinput]; dsimp only; rw [hcount], rfl⟩
  | gate hkind hchars hgap hne hinGap hinCount hins houtGap houtCount houts =>
    have hgate :=
      Written.gate hkind hchars hgap hne hinGap hinCount hins houtGap houtCount houts
    obtain ⟨rest', hread, hrest⟩ := hgate.gate?_append hdigit hopen
    have hnone {word : String} (hword : word ∈ ["total", "input", "output"]) :=
      hgate.counted?_gate_eq_none hclash rest hword
    refine ⟨rest', ?_, hrest⟩
    rw [scan?, hnone (.head _), hnone (.tail _ (.head _)), hnone (.tail _ (.tail _ (.head _))),
      hread]

/-- A gate that is taken for another statement leaves text that is no comment. -/
theorem Written.scan?_of_clashes (h : Written s cs) (hclash : s.clashes = true)
    (rest : List Char) :
    ∃ s' rest', scan? (cs ++ rest) = some (s', rest') ∧ Line.comment? rest' = none := by
  cases s with
  | gate kind inCount ins outCount outs =>
    have htotal := h.counted?_gate "total" rfl rest
    have hinput := h.counted?_gate "input" rfl rest
    have houtput := h.counted?_gate "output" rfl rest
    rw [scan?]
    by_cases hlikeTotal : startsLike kind "total" = true
    · rw [if_pos hlikeTotal] at htotal
      obtain ⟨n, rest', hcount, hcomment⟩ := htotal
      exact ⟨.total n, rest', by rw [hcount], hcomment⟩
    rw [if_neg hlikeTotal] at htotal
    rw [htotal]
    by_cases hlikeInput : startsLike kind "input" = true
    · rw [if_pos hlikeInput] at hinput
      obtain ⟨n, rest', hcount, hcomment⟩ := hinput
      exact ⟨.input n, rest', by rw [hcount], hcomment⟩
    rw [if_neg hlikeInput] at hinput
    rw [hinput]
    have hlikeOutput : startsLike kind "output" = true := by
      simpa [clashes, hlikeTotal, hlikeInput] using hclash
    rw [if_pos hlikeOutput] at houtput
    obtain ⟨n, rest', hcount, hcomment⟩ := houtput
    exact ⟨.output n, rest', by rw [hcount], hcomment⟩
  | total | input | output => cases hclash

end Statement

/-! ## Lines as they are written -/

namespace Line

variable {cs note tail : List Char} {l : Line}

/-- The end of a line: nothing but gaps, or a comment with blanks around its note. -/
inductive Tail : List Char → List Char → Prop
  | bare {gap : List Char} (hgap : IsGaps gap) : Tail [] gap
  | comment {gap pre note post : List Char} (hgap : IsGaps gap) (hpre : IsBlanks pre)
    (hpreLine : OneLine pre) (hnote : IsNote note) (hpost : IsBlanks post)
    (hpostLine : OneLine post) : Tail note (gap ++ '#' :: (pre ++ (note ++ post)))

/-- A line as it is written. -/
inductive Written : Line → List Char → Prop
  | idle {note tail : List Char} (htail : Tail note tail) : Written ⟨none, note⟩ tail
  | statement {lead cs note tail : List Char} {s : Statement} (hlead : IsGaps lead)
    (hs : s.Written cs) (htail : Tail note tail) : Written ⟨some s, note⟩ (lead ++ (cs ++ tail))

theorem comment?_congr {ds : List Char} (h : skipGaps cs = skipGaps ds) :
    comment? cs = comment? ds := by
  rw [comment?, comment?, h]

/-- The note of a comment is what stands between the blanks. -/
theorem Tail.comment?_eq (h : Tail note tail) : comment? tail = some note := by
  cases h with
  | bare hgap => rw [comment?, skipGaps_of_isGaps hgap]
  | @comment gap pre _ post hgap hpre hpreLine hnote hpost hpostLine =>
    have hskip : skipGaps (gap ++ '#' :: (pre ++ (note ++ post))) =
        '#' :: (pre ++ (note ++ post)) := skipGaps_append hgap _
    have hbreak : (pre ++ (note ++ post)).any (fun c ↦ c == '\n' || c == '\r') = false :=
      (hpreLine.append (hnote.toOneLine.append hpostLine)).any_eq_false
    rw [comment?, hskip]
    change (if (pre ++ (note ++ post)).any (fun c ↦ c == '\n' || c == '\r') then none
      else some (trim (pre ++ (note ++ post)))) = _
    rw [hbreak, if_neg Bool.false_ne_true, hnote.trim_blanks hpre hpost]

/-- Behind the gaps a line ends or has its comment. -/
theorem Tail.stops (h : Tail note tail) {p : Char → Bool} (hp : p '#' = false) :
    Stops p (skipGaps tail) := by
  cases h with
  | bare hgap => rw [skipGaps_of_isGaps hgap]; exact Stops.nil
  | comment hgap => rw [skipGaps_append hgap]; exact Stops.cons_iff.mpr hp

/-- There is no statement in the end of a line. -/
theorem Tail.scan?_eq_none (h : Tail note tail) : Statement.scan? tail = none := by
  have hword {word : String} {c : Char} {w : List Char} (hcs : word.toList = c :: w)
      (hc : ('#' == c) = false) : Statement.counted? word tail = none := by
    rw [Statement.counted?, keyword?_eq_none hcs (h.stops hc)]
    rfl
  have hkind : Statement.kind? tail = none := by
    rw [Statement.kind?, (h.stops rfl).takeWhile_eq]
  rw [Statement.scan?, hword rfl rfl, hword rfl rfl, hword rfl rfl, Statement.gate?, hkind]
  rfl

/-! ### Written lines are on one line -/

end Line

theorem Formula.IsGaps.oneLine {g : List Char} (h : IsGaps g) : OneLine g :=
  .of_forall (p := isGap) rfl rfl h

namespace Text

variable {cs : List Char} {wires : List (List Char)}

theorem IsRun.oneLine {ds : List Char} (h : IsRun ds) : OneLine ds :=
  .of_forall (p := isDigit) rfl rfl h.digits

theorem Spread.oneLine (h : Spread wires cs) : OneLine cs := by
  induction h with
  | nil hgap => exact hgap.oneLine
  | cons hgap _ hds _ ih => exact hgap.oneLine.append (hds.oneLine.append ih)

end Text

namespace Statement

variable {cs : List Char} {wires : List (List Char)} {s : Statement}

theorem WiresWritten.oneLine (h : WiresWritten wires cs) : OneLine cs := by
  cases h with
  | bare h => exact h.oneLine
  | @bracketed _ cs after hbefore h hafter =>
    have hcs : OneLine cs := h.oneLine.of_subset (List.subset_cons_self ' ' cs)
    have hopen : OneLine ['<'] := .of_any_eq_false rfl
    have hclose : OneLine ['>'] := .of_any_eq_false rfl
    exact hbefore.oneLine.append (hopen.append (hcs.append (hclose.append hafter.oneLine)))

theorem Written.oneLine (h : Written s cs) : OneLine cs := by
  cases h with
  | total hgap hds => exact (OneLine.of_any_eq_false rfl).append (hgap.oneLine.append hds.oneLine)
  | input hgap hds => exact (OneLine.of_any_eq_false rfl).append (hgap.oneLine.append hds.oneLine)
  | output hgap hds => exact (OneLine.of_any_eq_false rfl).append (hgap.oneLine.append hds.oneLine)
  | gate _ hchars hgap _ hinGap hinCount hins houtGap houtCount houts =>
    have hkind : OneLine _ := .of_forall (p := isKindChar) rfl rfl hchars
    have hin : OneLine "in".toList := .of_any_eq_false rfl
    have hout : OneLine "out".toList := .of_any_eq_false rfl
    have houtSide := hout.append (houtGap.oneLine.append (houtCount.oneLine.append houts.oneLine))
    have hinSide := hin.append (hinGap.oneLine.append (hinCount.oneLine.append hins.oneLine))
    simpa only [List.append_assoc] using
      hkind.append (hgap.oneLine.append (hinSide.append houtSide))

end Statement

namespace Line

variable {cs note tail : List Char} {l : Line}

theorem Tail.oneLine (h : Tail note tail) : OneLine tail := by
  cases h with
  | bare hgap => exact hgap.oneLine
  | comment hgap _ hpre hnote _ hpost =>
    have hmark : OneLine ['#'] := .of_any_eq_false rfl
    exact hgap.oneLine.append (hmark.append (hpre.append (hnote.toOneLine.append hpost)))

theorem Written.oneLine (h : l.Written cs) : OneLine cs := by
  cases h with
  | idle htail => exact htail.oneLine
  | statement hlead hs htail => exact hlead.oneLine.append (hs.oneLine.append htail.oneLine)

/-! ### What a line declares -/

/-- What a line declares, whatever its layout. -/
def declared : Line → Except LineFault Declaration
  | ⟨none, _⟩ => .ok .nothing
  | ⟨some s, note⟩ => if s.clashes then .error .grammar else Declaration.ofStatement note s

theorem declared_of_clashes_eq_false {s : Statement} (h : s.clashes = false) (note : List Char) :
    declared ⟨some s, note⟩ = Declaration.ofStatement note s := by
  rw [declared, h, if_neg Bool.false_ne_true]

/-- A line is read as what it declares. -/
theorem Written.read_eq (h : l.Written cs) : Declaration.read cs = l.declared := by
  cases h with
  | @idle note _ htail =>
    have hline : read? cs = some ⟨none, note⟩ := by
      rw [read?, htail.scan?_eq_none]
      dsimp only
      rw [htail.comment?_eq]
      rfl
    rw [Declaration.read, hline, declared]
  | @statement lead text note tail s hlead hs htail =>
    rw [Declaration.read, read?, Statement.scan?_congr (skipGaps_append hlead _)]
    cases hclash : s.clashes with
    | true =>
      obtain ⟨s', rest, hscan, hcomment⟩ := hs.scan?_of_clashes hclash tail
      rw [hscan, declared, hclash]
      dsimp only
      rw [hcomment]
      rfl
    | false =>
      obtain ⟨rest, hscan, hrest⟩ := hs.scan?_append hclash (htail.stops rfl) (htail.stops rfl)
      have hcomment : comment? rest = some note := by
        rw [comment?_congr hrest, htail.comment?_eq]
      rw [hscan, declared, hclash]
      dsimp only
      rw [hcomment]
      rfl

end Line

end Quadratize
