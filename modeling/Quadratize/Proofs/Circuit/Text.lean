import Quadratize.Proofs.Circuit.Layout
import Quadratize.Proofs.Circuit.Tag
import Quadratize.Proofs.Circuit.Valid

/-!
# Written circuits are read back

A circuit is legible if its text shows it: numbers of wires lie below the limit of counts, notes fit
on their lines, and forms are in standard shape.  Every circuit that has been read is legible.  The
lines of a legible circuit are in one of the layouts of what they state, so the circuit is read back
from its text, apart from notes of quadratic gates, which have their formulas in the place of notes.
-/

namespace Quadratize

open Text
open Formula (IsGaps)

/-! ## Gates -/

namespace Statement

/-- The written form of a gate without its note. -/
def gateText (g : Gate) : List Char :=
  g.op.tag ++ " in ".toList ++ Circuit.renderWires g.ins ++ " out ".toList ++
    Circuit.renderWires g.outs

/-- The statement of a gate. -/
def ofGate (g : Gate) : Statement :=
  .gate g.op.tag (decimal g.ins.length) (g.ins.map Wire.render) (decimal g.outs.length)
    (g.outs.map Wire.render)

/-- No rendered gate is taken for another statement. -/
theorem clashes_ofGate (g : Gate) : (ofGate g).clashes = false := by
  obtain ⟨htotal, hinput, houtput⟩ := g.op.isPrefixOf?_tag
  simp only [ofGate, clashes, List.any_cons, startsLike_eq_false htotal,
    startsLike_eq_false hinput, startsLike_eq_false houtput]
  rfl

theorem spread_wireList (ws : List Wire) : Spread (ws.map Wire.render) (' ' :: wireList ws) := by
  have hgap : IsGaps [' '] := Formula.isGaps_space
  have hruns (ws : List Wire) :
      Spread (ws.map Wire.render) ((ws.map Wire.render).flatMap (' ' :: ·)) := by
    induction ws with
    | nil => exact .nil Formula.isGaps_nil
    | cons w ws ih => exact .cons hgap (List.cons_ne_nil _ _) (isRun_decimal w.id) ih
  cases ws with
  | nil => exact .nil hgap
  | cons w ws =>
    rw [wireList, List.map_cons, intercalate_space_cons]
    exact .cons hgap (List.cons_ne_nil _ _) (isRun_decimal w.id) (hruns ws)

/-- Rendered wire lists are in brackets, and here with the gap of the next part behind them. -/
theorem wiresWritten_wireList (ws : List Wire) {gap : List Char} (hgap : IsGaps gap) :
    WiresWritten (ws.map Wire.render) (' ' :: '<' :: (wireList ws ++ '>' :: gap)) :=
  .bracketed Formula.isGaps_space (spread_wireList ws) hgap

theorem written_gateText (g : Gate) : (ofGate g).Written (gateText g) := by
  have hgap : IsGaps [' '] := Formula.isGaps_space
  have htext : gateText g = g.op.tag ++ ([' '] ++ ("in".toList ++ ([' '] ++
      (decimal g.ins.length ++ ((' ' :: '<' :: (wireList g.ins ++ '>' :: [' '])) ++
        ("out".toList ++ ([' '] ++ (decimal g.outs.length ++
          (' ' :: '<' :: (wireList g.outs ++ '>' :: [])))))))))) := by
    simp [gateText, Circuit.renderWires]
  rw [htext]
  exact .gate g.op.tag_ne_nil (fun _ ↦ Opcode.isKindChar_of_mem_tag) hgap (List.cons_ne_nil _ _)
    hgap (isRun_decimal _) (wiresWritten_wireList g.ins hgap) hgap (isRun_decimal _)
    (wiresWritten_wireList g.outs Formula.isGaps_nil)

end Statement

/-! ## Comments -/

namespace Circuit

/-- A statement with its note, if it has one, in the column of the comments. -/
def commented (text note : List Char) : List Char :=
  if note.isEmpty then text else padRight noteColumn text ++ " # ".toList ++ note

theorem noteLine_eq (text note : List Char) :
    noteLine text note = commented text note ++ ['\n'] := by
  unfold noteLine commented
  split
  · rfl
  · rfl

/-- The note of a rendered line starts in the column of the comments. -/
theorem exists_commented_tail (text : List Char) {note : List Char} (h : IsNote note) :
    ∃ tail, commented text note = text ++ tail ∧ Line.Tail note tail := by
  unfold commented
  split
  · rename_i hempty
    obtain rfl := List.isEmpty_iff.mp hempty
    exact ⟨[], (List.append_nil text).symm, .bare Formula.isGaps_nil⟩
  · have hgap : IsGaps (List.replicate (noteColumn - text.length) ' ' ++ [' ']) := by
      refine IsGaps.append (fun c hc ↦ ?_) Formula.isGaps_space
      rw [List.eq_of_mem_replicate hc]
      rfl
    have hblank : IsBlanks [' '] := List.forall_mem_singleton.mpr rfl
    refine ⟨_, ?_, .comment hgap hblank (.of_any_eq_false rfl) h isBlanks_nil isNote_nil.toOneLine⟩
    simp [padRight]

/-- A rendered statement is a line with its note. -/
theorem written_commented {s : Statement} {text note : List Char} (hs : s.Written text)
    (hnote : IsNote note) : Line.Written ⟨some s, note⟩ (commented text note) := by
  obtain ⟨tail, htext, htail⟩ := exists_commented_tail text hnote
  rw [htext]
  exact .statement Formula.isGaps_nil hs htail

end Circuit

/-! ## Declarations -/

namespace Declaration

theorem readWires_eq_ok {side : GateSide} {count : List Char} {wires : List (List Char)}
    {ws : List Wire} : readWires side count wires = .ok ws ↔
      wires.mapM readWire = .ok ws ∧ readBelow? countLimit count = some ws.length := by
  rw [readWires, bind_eq_ok]
  constructor
  · rintro ⟨vs, hvs, h⟩
    split at h
    · cases h
    · rename_i n hn
      split_ifs at h with hlength
      cases h
      exact ⟨hvs, hlength ▸ hn⟩
  · rintro ⟨hws, hcount⟩
    refine ⟨ws, hws, ?_⟩
    rw [hcount]
    exact if_pos rfl

theorem readWires_render (side : GateSide) {ws : List Wire} (h : ws.length < countLimit) :
    readWires side (decimal ws.length) (ws.map Wire.render) = .ok ws := by
  refine readWires_eq_ok.mpr ⟨mapM_eq_ok.mpr ?_, readBelow?_decimal h⟩
  refine List.forall₂_map_left_iff.mpr (List.forall₂_same.mpr fun w _ ↦ ?_)
  rw [readWire, Wire.read?_render]

end Declaration

/-! ## Legible circuits -/

/-- The gate as it is read back from its line. -/
def Gate.reread (g : Gate) : Gate :=
  { g with note := Declaration.keptNote g.op g.note }

/-- A gate that can be read back from its line. -/
structure Gate.Legible (g : Gate) : Prop where
  ins_lt : g.ins.length < countLimit
  outs_lt : g.outs.length < countLimit
  note : IsNote g.reread.note
  standard : ∀ f, g.op = .quadratic f → f.Standard

namespace Circuit

/-- The circuit as it is read back from its text. -/
def reread (c : Circuit) : Circuit :=
  { c with gates := c.gates.map Gate.reread }

/-- A circuit that can be read back from its text. -/
structure Legible (c : Circuit) : Prop where
  inputs : ∀ i ∈ c.inputs, IsNote i.note
  gates : ∀ g ∈ c.gates, g.Legible

/-! ## Written lines -/

/-- The line of the number of wires. -/
def totalLine (c : Circuit) : List Char :=
  "total ".toList ++ decimal c.numVariables

/-- The line of a primary input. -/
def inputLine (i : PrimaryInput) : List Char :=
  commented ("input ".toList ++ i.wire.render) i.note

/-- The line of a gate. -/
def gateLine (g : Gate) : List Char :=
  commented (Statement.gateText g) (gateNote g)

/-- The line of a declared output. -/
def outputLine (w : Wire) : List Char :=
  "output ".toList ++ w.render

/-- The lines of the text of a circuit. -/
def textLines (c : Circuit) : List (List Char) :=
  c.totalLine :: (c.inputs.map inputLine ++ (c.gates.map gateLine ++ c.outputs.map outputLine))

theorem render_eq (c : Circuit) : c.render = c.textLines.flatMap fun l ↦ l ++ ['\n'] := by
  have hinputs : c.inputs.flatMap renderInput =
      (c.inputs.map inputLine).flatMap fun cs ↦ cs ++ ['\n'] :=
    flatMap_line (fun _ ↦ noteLine_eq _ _) c.inputs
  have hgates : c.gates.flatMap renderGate =
      (c.gates.map gateLine).flatMap fun cs ↦ cs ++ ['\n'] :=
    flatMap_line (fun _ ↦ noteLine_eq _ _) c.gates
  have houtputs : c.outputs.flatMap renderOutput =
      (c.outputs.map outputLine).flatMap fun cs ↦ cs ++ ['\n'] :=
    flatMap_line (fun _ ↦ rfl) c.outputs
  unfold render textLines totalLine
  rw [List.flatMap_cons, List.flatMap_append, List.flatMap_append, hinputs, hgates, houtputs]
  simp only [List.append_assoc]

/-- What the lines declare. -/
def declarations (c : Circuit) : List Declaration :=
  .nothing :: (c.inputs.map .input ++ (c.gates.map .gate ++ c.outputs.map .output))

theorem ofDeclarations_declarations (c : Circuit) : ofDeclarations c.declarations = c := by
  have hinputs : c.declarations.filterMap Declaration.input? = c.inputs := by
    rw [declarations, List.filterMap_cons_none rfl]
    simp [Function.comp_def, Declaration.input?]
  have hgates : c.declarations.filterMap Declaration.gate? = c.gates := by
    rw [declarations, List.filterMap_cons_none rfl]
    simp [Function.comp_def, Declaration.gate?]
  have houtputs : c.declarations.filterMap Declaration.output? = c.outputs := by
    rw [declarations, List.filterMap_cons_none rfl]
    simp [Function.comp_def, Declaration.output?]
  rw [ofDeclarations, hinputs, hgates, houtputs]

theorem gateNote_of_not_quadratic {g : Gate} (h : g.op.isQuadratic = false) :
    gateNote g = g.note := by
  unfold gateNote
  split
  · rename_i f hop
    rw [hop] at h
    cases h
  · rfl

theorem keptNote_gateNote (g : Gate) :
    Declaration.keptNote g.op (gateNote g) = g.reread.note := by
  rw [Gate.reread, Declaration.keptNote, Declaration.keptNote]
  split
  · rfl
  · rename_i hop
    exact gateNote_of_not_quadratic (by simpa using hop)

/-- The comment of a gate can stand on its line. -/
theorem isNote_gateNote {g : Gate} (h : g.Legible) : IsNote (gateNote g) := by
  have hnote := h.note
  rw [Gate.reread, Declaration.keptNote] at hnote
  cases hop : g.op.isQuadratic with
  | false =>
    rw [hop, if_neg Bool.false_ne_true] at hnote
    rwa [gateNote_of_not_quadratic hop]
  | true =>
    unfold gateNote
    split
    · rename_i f hf
      exact f.denotes_render.isNote
    · rename_i hne
      unfold Opcode.isQuadratic at hop
      split at hop
      · rename_i f hf
        exact absurd hf (hne f)
      · cases hop

/-- What the lines of a rendered circuit state. -/
def statedLines (c : Circuit) : List Line :=
  ⟨some (.total (decimal c.numVariables)), []⟩ ::
    (c.inputs.map (fun i ↦ ⟨some (.input i.wire.render), i.note⟩) ++
      (c.gates.map (fun g ↦ ⟨some (.ofGate g), gateNote g⟩) ++
        c.outputs.map (fun w ↦ ⟨some (.output w.render), []⟩)))

/-- The lines of a rendered circuit are in one of their layouts. -/
theorem written_textLines {c : Circuit} (h : c.Legible) :
    List.Forall₂ Line.Written c.statedLines c.textLines := by
  have hgap : IsGaps [' '] := Formula.isGaps_space
  have htotal : Line.Written ⟨some (.total (decimal c.numVariables)), []⟩ c.totalLine :=
    written_commented (.total hgap (isRun_decimal _)) isNote_nil
  have hinput (i : PrimaryInput) (hi : i ∈ c.inputs) :
      Line.Written ⟨some (.input i.wire.render), i.note⟩ (inputLine i) :=
    written_commented (.input hgap (isRun_decimal _)) (h.inputs i hi)
  have hgate (g : Gate) (hg : g ∈ c.gates) :
      Line.Written ⟨some (.ofGate g), gateNote g⟩ (gateLine g) :=
    written_commented (Statement.written_gateText g) (isNote_gateNote (h.gates g hg))
  have houtput (w : Wire) (_ : w ∈ c.outputs) :
      Line.Written ⟨some (.output w.render), []⟩ (outputLine w) :=
    written_commented (.output hgap (isRun_decimal _)) isNote_nil
  refine .cons htotal (List.rel_append ?_ (List.rel_append ?_ ?_))
  · exact List.forall₂_map_left_iff.mpr (List.forall₂_map_right_iff.mpr
      (List.forall₂_same.mpr hinput))
  · exact List.forall₂_map_left_iff.mpr (List.forall₂_map_right_iff.mpr
      (List.forall₂_same.mpr hgate))
  · exact List.forall₂_map_left_iff.mpr (List.forall₂_map_right_iff.mpr
      (List.forall₂_same.mpr houtput))

theorem oneLine_of_mem_textLines {c : Circuit} (h : c.Legible) : ∀ l ∈ c.textLines, OneLine l := by
  intro l hl
  obtain ⟨_, -, hwritten⟩ := exists_of_forall₂ (written_textLines h) hl
  exact hwritten.oneLine

theorem declared_input (i : PrimaryInput) :
    Line.declared ⟨some (.input i.wire.render), i.note⟩ = .ok (.input i) := by
  rw [Line.declared_of_clashes_eq_false rfl, Declaration.ofStatement, Declaration.readWire,
    Wire.read?_render]
  rfl

theorem declared_output (w : Wire) :
    Line.declared ⟨some (.output w.render), []⟩ = .ok (.output w) := by
  rw [Line.declared_of_clashes_eq_false rfl, Declaration.ofStatement, Declaration.readWire,
    Wire.read?_render]
  rfl

theorem declared_gate {g : Gate} (h : g.Legible) :
    Line.declared ⟨some (.ofGate g), gateNote g⟩ = .ok (.gate g.reread) := by
  have hop : Opcode.read g.op.tag (gateNote g) = .ok g.op := by
    refine Opcode.read_tag fun f hf ↦ ?_
    have hnote : gateNote g = f.render := by rw [gateNote, hf]
    rw [hnote, QuadForm.read_render]
    exact congrArg _ (h.standard f hf)
  rw [Line.declared_of_clashes_eq_false (Statement.clashes_ofGate g)]
  refine bind_eq_ok.mpr ⟨g.ins, Declaration.readWires_render .input h.ins_lt, ?_⟩
  refine bind_eq_ok.mpr ⟨g.outs, Declaration.readWires_render .output h.outs_lt, ?_⟩
  rw [hop]
  dsimp only
  rw [keptNote_gateNote]
  rfl

/-- The stated lines declare the circuit as it is read back. -/
theorem declared_statedLines {c : Circuit} (h : c.Legible) :
    List.Forall₂ (fun l d ↦ Line.declared l = .ok d) c.statedLines c.reread.declarations := by
  refine .cons rfl (List.rel_append ?_ (List.rel_append ?_ ?_))
  · exact List.forall₂_map_left_iff.mpr (List.forall₂_map_right_iff.mpr
      (List.forall₂_same.mpr fun i _ ↦ declared_input i))
  · rw [reread, List.map_map]
    exact List.forall₂_map_left_iff.mpr (List.forall₂_map_right_iff.mpr
      (List.forall₂_same.mpr fun g hg ↦ declared_gate (h.gates g hg)))
  · exact List.forall₂_map_left_iff.mpr (List.forall₂_map_right_iff.mpr
      (List.forall₂_same.mpr fun w _ ↦ declared_output w))

/-- Lines are read one by one, whatever their numbers are. -/
theorem readLines_eq_ok {ls : List (List Char)} {n : Nat} {ds : List Declaration} :
    readLines (ls.zipIdx n) = .ok ds ↔
      List.Forall₂ (fun l d ↦ Declaration.read l = .ok d) ls ds := by
  induction ls generalizing n ds with
  | nil =>
    rw [List.zipIdx_nil, readLines, List.forall₂_nil_left_iff]
    exact ⟨fun h ↦ (Except.ok.inj h).symm, fun h ↦ congrArg _ h.symm⟩
  | cons l ls ih =>
    rw [List.zipIdx_cons, readLines, bind_eq_ok]
    constructor
    · rintro ⟨d, hd, h⟩
      obtain ⟨ds', hds', h⟩ := bind_eq_ok.mp h
      cases h
      exact .cons (mapError_eq_ok.mp hd) (ih.mp hds')
    · rintro (_ | ⟨hd, hds⟩)
      exact ⟨_, mapError_eq_ok.mpr hd, bind_eq_ok.mpr ⟨_, ih.mpr hds, rfl⟩⟩

/-- A text is read as the valid circuit that its lines declare. -/
theorem read_eq_ok {text : List Char} {c : Circuit} :
    read text = .ok c ↔ ∃ ds, List.Forall₂ (fun l d ↦ Declaration.read l = .ok d) (lines text) ds ∧
      ofDeclarations ds = c ∧ c.Valid := by
  rw [read, bind_eq_ok]
  constructor
  · rintro ⟨ds, hds, h⟩
    obtain ⟨⟨⟩, hvalid, h⟩ := bind_eq_ok.mp h
    cases h
    exact ⟨ds, readLines_eq_ok.mp hds, rfl, validate_eq_ok.mp (mapError_eq_ok.mp hvalid)⟩
  · rintro ⟨ds, hds, rfl, hvalid⟩
    exact ⟨ds, readLines_eq_ok.mpr hds,
      bind_eq_ok.mpr ⟨(), mapError_eq_ok.mpr (validate_eq_ok.mpr hvalid), rfl⟩⟩

/-- Written lines are read as what they declare. -/
theorem forall₂_read {L : List Line} {ls : List (List Char)} {ds : List Declaration}
    (hwritten : List.Forall₂ Line.Written L ls)
    (hdeclared : List.Forall₂ (fun l d ↦ Line.declared l = .ok d) L ds) :
    List.Forall₂ (fun l d ↦ Declaration.read l = .ok d) ls ds := by
  induction hwritten generalizing ds with
  | nil =>
    cases hdeclared
    exact .nil
  | cons hl _ ih =>
    cases hdeclared with
    | cons hd hds => exact .cons (hl.read_eq.trans hd) (ih hds)

/-- A legible circuit is read back from its text. -/
theorem read_render {c : Circuit} (h : c.Legible) (hvalid : c.reread.Valid) :
    read c.render = .ok c.reread := by
  refine read_eq_ok.mpr ⟨c.reread.declarations, ?_, ofDeclarations_declarations _, hvalid⟩
  rw [render_eq, lines_flatMap (oneLine_of_mem_textLines h)]
  exact forall₂_read (written_textLines h) (declared_statedLines h)

/-! ## What has been read -/

theorem isNote_of_comment? {cs note : List Char} (h : Line.comment? cs = some note) :
    IsNote note := by
  unfold Line.comment? at h
  split at h
  · cases h
    exact isNote_nil
  · split_ifs at h with hbreak
    cases h
    exact (OneLine.of_any_eq_false (by simpa using hbreak)).isNote_trim
  · cases h

/-- A declaration comes from a statement with a note. -/
theorem ofStatement_of_read {line : List Char} {d : Declaration} (h : Declaration.read line = .ok d)
    (hd : d ≠ .nothing) :
    ∃ s note, IsNote note ∧ Declaration.ofStatement note s = .ok d := by
  unfold Declaration.read at h
  split at h
  · cases h
  · cases h
    exact absurd rfl hd
  · rename_i s note hline
    refine ⟨s, note, ?_, h⟩
    unfold Line.read? at hline
    split at hline
    · obtain ⟨n, hn, he⟩ := Option.map_eq_some_iff.mp hline
      cases he
      exact isNote_of_comment? hn
    · obtain ⟨n, hn, he⟩ := Option.map_eq_some_iff.mp hline
      cases he

theorem isNote_of_read_input {line : List Char} {i : PrimaryInput}
    (h : Declaration.read line = .ok (.input i)) : IsNote i.note := by
  obtain ⟨s, note, hnote, h⟩ := ofStatement_of_read h nofun
  cases s with
  | total => cases h
  | input w =>
    obtain ⟨v, -, h⟩ := bind_eq_ok.mp h
    cases h
    exact hnote
  | output w =>
    obtain ⟨v, -, h⟩ := bind_eq_ok.mp h
    cases h
  | gate kind inCount ins outCount outs =>
    obtain ⟨vs, -, h⟩ := bind_eq_ok.mp h
    obtain ⟨ws, -, h⟩ := bind_eq_ok.mp h
    split at h
    · cases h
    · cases h

/-- The parts of a gate that has been read. -/
theorem exists_of_read_gate {line : List Char} {g : Gate}
    (h : Declaration.read line = .ok (.gate g)) :
    ∃ kind note, IsNote note ∧ Opcode.read kind note = .ok g.op ∧
      g.ins.length < countLimit ∧ g.outs.length < countLimit ∧
      g.note = Declaration.keptNote g.op note := by
  obtain ⟨s, note, hnote, h⟩ := ofStatement_of_read h nofun
  cases s with
  | total => cases h
  | input w =>
    obtain ⟨v, -, h⟩ := bind_eq_ok.mp h
    cases h
  | output w =>
    obtain ⟨v, -, h⟩ := bind_eq_ok.mp h
    cases h
  | gate kind inCount ins outCount outs =>
    obtain ⟨vs, hvs, h⟩ := bind_eq_ok.mp h
    obtain ⟨ws, hws, h⟩ := bind_eq_ok.mp h
    split at h
    · rename_i op hop
      cases h
      have hins := lt_of_readBelow? (Declaration.readWires_eq_ok.mp hvs).2
      have houts := lt_of_readBelow? (Declaration.readWires_eq_ok.mp hws).2
      exact ⟨kind, note, hnote, hop, hins, houts, rfl⟩
    · cases h

theorem legible_of_read_gate {line : List Char} {g : Gate}
    (h : Declaration.read line = .ok (.gate g)) : g.Legible ∧ g.reread = g := by
  obtain ⟨kind, note, hnote, hop, hins, houts, hkept⟩ := exists_of_read_gate h
  have hreread : g.reread = g := by
    obtain ⟨op, ins, outs, kept⟩ := g
    obtain rfl : kept = Declaration.keptNote op note := hkept
    rw [Gate.reread, Declaration.keptNote, Declaration.keptNote]
    split
    · rfl
    · rfl
  refine ⟨⟨hins, houts, ?_, fun f hf ↦ ?_⟩, hreread⟩
  · rw [hreread, hkept, Declaration.keptNote]
    split
    · exact isNote_nil
    · exact hnote
  · rw [hf] at hop
    exact QuadForm.standard_of_read (Opcode.of_read_eq_quadratic hop)

theorem legible_of_read {text : List Char} {c : Circuit} (h : read text = .ok c) :
    c.Legible ∧ c.reread = c := by
  obtain ⟨ds, hds, rfl, -⟩ := read_eq_ok.mp h
  have hline {d : Declaration} (hd : d ∈ ds) : ∃ line, Declaration.read line = .ok d := by
    obtain ⟨line, -, hread⟩ := exists_of_forall₂ hds hd
    exact ⟨line, hread⟩
  have hgates : ∀ g ∈ (ofDeclarations ds).gates, g.Legible ∧ g.reread = g := by
    intro g hg
    obtain ⟨d, hd, hgate⟩ := List.mem_filterMap.mp hg
    obtain ⟨line, hread⟩ := hline hd
    unfold Declaration.gate? at hgate
    split at hgate
    · cases hgate
      exact legible_of_read_gate hread
    · cases hgate
  refine ⟨⟨fun i hi ↦ ?_, fun g hg ↦ (hgates g hg).1⟩, ?_⟩
  · obtain ⟨d, hd, hinput⟩ := List.mem_filterMap.mp hi
    obtain ⟨line, hread⟩ := hline hd
    unfold Declaration.input? at hinput
    split at hinput
    · cases hinput
      exact isNote_of_read_input hread
    · cases hinput
  · have hsame : (ofDeclarations ds).gates.map Gate.reread = (ofDeclarations ds).gates :=
      (List.map_congr_left fun g hg ↦ (hgates g hg).2).trans (List.map_id _)
    rw [reread, hsame]

/-- Writing a circuit that has been read and reading it again changes nothing. -/
theorem read_render_of_read {text : List Char} {c : Circuit} (h : read text = .ok c) :
    read c.render = .ok c := by
  obtain ⟨hlegible, hreread⟩ := legible_of_read h
  obtain ⟨_, _, _, hvalid⟩ := read_eq_ok.mp h
  have hread := read_render hlegible (hreread.symm ▸ hvalid)
  rwa [hreread] at hread

/-- A text with notes that contain `#` and a tab, a negative constant, and two formulas, one without
wires. -/
def annotatedText : List Char :=
  ("total 6\n" ++ "input 0 # one-input\n" ++ "input 1 # a # b\tc  \n" ++
    "const-mul-neg-1F in 1 <1> out 1 <2>#scaled\n" ++ "add in 2 <1 2> out 1 <3>\n" ++
    "quadratic in 2 <1 3> out 1 <4> # (1 + 2*_1_) * _3_ - 5\n" ++
    "quad_gate in 0 <> out 1 <5> # 7\n" ++ "output 4\n").toList

theorem read_render_annotatedText :
    ∃ c, read annotatedText = .ok c ∧
      c.gates.map (·.note) = ["scaled".toList, [], [], []] ∧ read c.render = .ok c := by
  obtain ⟨c, hread, hnotes⟩ := exists_ok_of_any (x := read annotatedText)
    (P := fun c ↦ c.gates.map (·.note) = ["scaled".toList, [], [], []]) (by decide +kernel)
  exact ⟨c, hread, of_decide_eq_true hnotes, read_render_of_read hread⟩

end Circuit

end Quadratize
