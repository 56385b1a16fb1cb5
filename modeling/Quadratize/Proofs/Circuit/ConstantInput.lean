import Quadratize.Proofs.Circuit.Inputs
import Quadratize.Proofs.Circuit.Renumber

/-!
# Moving the constant input

A circuit stays as it is if its first primary input is marked.  Otherwise the last primary input
becomes wire zero and moves to the front, and every other one gets the next number.  Old and new
numbers of inputs may overlap, so all wires are renamed at once, by a map that keeps them apart.
There is no such map exactly if a number would be too large or belongs to a wire that is no primary
input, and then nothing is written.
-/

namespace Quadratize

theorem Text.occursIn_iff {word cs : List Char} : occursIn word cs = true ↔ word <:+: cs := by
  induction cs with
  | nil => rw [occursIn, List.isEmpty_iff, List.infix_nil]
  | cons c cs ih =>
    rw [occursIn, Bool.or_eq_true, List.isPrefixOf_iff_prefix, ih, List.infix_cons_iff]

namespace Circuit

variable {c d : Circuit} {others ws : List Wire} {last v w : Wire} {pairs : List (Wire × Wire)}

/-! ## The new numbers -/

/-- There is a first primary input, and its note holds the mark of the constant input. -/
def MarksFirst (c : Circuit) : Prop :=
  ∃ i, c.inputs.head? = some i ∧ oneMark <:+: i.note

/-- The number that a primary input gets. -/
def shiftedId (c : Circuit) (w : Wire) : Nat :=
  if c.inputWires.getLast? = some w then 0 else w.id + 1

/-- An input other than the last has the largest number, or a wire that is no primary input has the
number that a primary input gets. -/
def ShiftBlocked (c : Circuit) : Prop :=
  (∃ w ∈ c.inputWires, c.inputWires.getLast? ≠ some w ∧ w.id = 2 ^ 32 - 2) ∨
    ∃ w ∈ c.inputWires, ∃ v ∈ c.wires, v ∉ c.inputWires ∧ v.id = c.shiftedId w

theorem shiftInput_eq_ok (hlast : c.inputWires.getLast? = some last) :
    shiftInput last w = .ok v ↔ v.id = c.shiftedId w := by
  rw [shiftInput, shiftedId, hlast]
  by_cases hw : w = last
  · rw [if_pos hw, if_pos (congrArg some hw.symm)]
    constructor
    · intro h
      rw [← Except.ok.inj h]
      rfl
    · intro h
      exact congrArg Except.ok (Wire.ext h.symm)
  · rw [if_neg hw, if_neg fun h ↦ hw (Option.some.inj h).symm, Wire.ofNat?]
    by_cases hlt : w.id + 1 < wireLimit
    · rw [dif_pos hlt]
      constructor
      · intro h
        rw [← Except.ok.inj h]
      · intro h
        exact congrArg Except.ok (Wire.ext h.symm)
    · rw [dif_neg hlt]
      constructor
      · intro h
        cases h
      · intro h
        exact absurd v.isLt (h ▸ hlt)

/-- Inputs can be shifted exactly if each of them has a new name that is free. -/
theorem exists_shiftInputs_iff : (∃ pairs, shiftInputs others last ws = .ok pairs) ↔
    ∀ w ∈ ws, ∃ v, shiftInput last w = .ok v ∧ v ∉ others := by
  constructor
  · rintro ⟨pairs, h⟩ w hw
    induction ws generalizing pairs with
    | nil => cases hw
    | cons u ws ih =>
      obtain ⟨v, hv, h⟩ := bind_eq_ok.mp h
      split_ifs at h with hmem
      · obtain ⟨_, hthrow, -⟩ := bind_eq_ok.mp h
        cases hthrow
      · obtain ⟨rest, hrest, -⟩ := bind_eq_ok.mp h
        rcases List.mem_cons.mp hw with rfl | hw
        · exact ⟨v, hv, hmem⟩
        · exact ih rest hrest hw
  · intro h
    induction ws with
    | nil => exact ⟨[], rfl⟩
    | cons w ws ih =>
      obtain ⟨⟨v, hv, hmem⟩, hws⟩ := List.forall_mem_cons.mp h
      obtain ⟨rest, hrest⟩ := ih hws
      refine ⟨(w, v) :: rest, bind_eq_ok.mpr ⟨v, hv, ?_⟩⟩
      rw [if_neg hmem]
      exact bind_eq_ok.mpr ⟨rest, hrest, rfl⟩

/-- The primary inputs can be shifted exactly if nothing is in the way. -/
theorem exists_shiftInputs_iff_not_blocked (hlast : c.inputWires.getLast? = some last) :
    (∃ pairs, shiftInputs c.internalWires last c.inputWires = .ok pairs) ↔ ¬c.ShiftBlocked := by
  rw [exists_shiftInputs_iff]
  constructor
  · rintro h (⟨w, hw, hne, hid⟩ | ⟨w, hw, v, hv, hnot, hid⟩)
    · obtain ⟨v, hv, -⟩ := h w hw
      rw [shiftInput_eq_ok hlast, shiftedId, if_neg hne, hid] at hv
      exact absurd v.isLt (hv ▸ Nat.lt_irrefl _)
    · obtain ⟨u, hu, hfree⟩ := h w hw
      rw [shiftInput_eq_ok hlast, ← hid] at hu
      obtain rfl := Wire.ext hu
      exact hfree (List.mem_filter.mpr ⟨hv, decide_eq_true hnot⟩)
  · intro h w hw
    have hlt : c.shiftedId w < wireLimit := by
      unfold shiftedId
      split_ifs with hwl
      · exact Wire.first.isLt
      · by_contra hle
        have hlarge : w.id = 2 ^ 32 - 2 := by
          have := w.isLt
          unfold wireLimit at this hle
          omega
        exact h (.inl ⟨w, hw, hwl, hlarge⟩)
    refine ⟨⟨c.shiftedId w, hlt⟩, (shiftInput_eq_ok hlast).mpr rfl, fun hmem ↦ ?_⟩
    obtain ⟨hmem, hnot⟩ := List.mem_filter.mp hmem
    exact h (.inr ⟨w, hw, _, hmem, of_decide_eq_true hnot, rfl⟩)

theorem id_renameBy (hlast : c.inputWires.getLast? = some last)
    (h : shiftInputs others last c.inputWires = .ok pairs) (hw : w ∈ c.inputWires) :
    (renameBy pairs w).id = c.shiftedId w := by
  obtain ⟨hkeys, hpairs⟩ := shiftInputs_eq_ok h
  have hshift : Shifts last w (renameBy pairs w) := (hpairs _ (mem_of_renameBy (hkeys ▸ hw))).1
  unfold Shifts at hshift
  rw [shiftedId, hlast]
  by_cases hwl : w = last
  · rw [if_pos hwl] at hshift
    rw [if_pos (congrArg some hwl.symm), hshift]
    rfl
  · rw [if_neg hwl] at hshift
    rw [if_neg fun h ↦ hwl (Option.some.inj h).symm, hshift]

/-! ## The circuit with its inputs moved -/

theorem lastToFront_eq_rotateRight {α : Type} (xs : List α) : lastToFront xs = xs.rotateRight := by
  cases hlast : xs.getLast? with
  | none =>
    obtain rfl := List.getLast?_eq_none_iff.mp hlast
    rfl
  | some x =>
    obtain ⟨ys, rfl⟩ := List.getLast?_eq_some_iff.mp hlast
    rw [lastToFront, hlast, List.dropLast_concat]
    cases ys with
    | nil => rfl
    | cons y ys =>
      have hlong : ¬(y :: ys ++ [x]).length ≤ 1 := by simp
      have hcut : (y :: ys ++ [x]).length - 1 % (y :: ys ++ [x]).length = (y :: ys).length := by
        rw [Nat.mod_eq_of_lt (Nat.lt_of_not_le hlong), List.length_append]
        exact Nat.add_sub_cancel _ _
      rw [List.rotateRight]
      dsimp only
      rw [if_neg hlong, hcut, List.drop_left, List.take_left]
      rfl

/-- The second circuit is the first with its wires renamed and its primary inputs rotated: the last
one, which is wire zero now, is in front. -/
structure Shifted (m : Wire → Wire) (c d : Circuit) : Prop where
  injOn : Set.InjOn m {w | w ∈ c.wires}
  shifts : ∀ w ∈ c.inputWires, (m w).id = c.shiftedId w
  fixes : ∀ w, w ∉ c.inputWires → m w = w
  inputs : d.inputs = (c.inputs.map fun i ↦ { i with wire := m i.wire }).rotateRight
  gates : List.Forall₂ (Gate.Replaced m) c.gates d.gates
  outputs : d.outputs = c.outputs.map m

/-- The circuit with its wires renamed and its last primary input in front. -/
def movedBy (pairs : List (Wire × Wire)) (c : Circuit) : Circuit :=
  { c.rename (renameBy pairs) with inputs := lastToFront (c.rename (renameBy pairs)).inputs }

theorem Valid.shifted (hc : c.Valid) (hlast : c.inputWires.getLast? = some last)
    (h : shiftInputs c.internalWires last c.inputWires = .ok pairs) :
    Shifted (renameBy pairs) c (c.movedBy pairs) := by
  have hinj := injOn_shiftInputs h
  have hreplaced := replaced_rename hc.gates hinj
  constructor
  · exact hinj
  · intro w hw
    exact id_renameBy hlast h hw
  · intro w hw
    exact renameBy_of_notMem ((shiftInputs_eq_ok h).1 ▸ hw)
  · rw [movedBy, lastToFront_eq_rotateRight, hreplaced.inputs]
  · exact hreplaced.gates
  · exact hreplaced.outputs

/-- Either there are no primary inputs, or the first one is marked, or all of them are shifted. -/
theorem normalizeInputs_eq (c : Circuit) :
    (c.inputs = [] ∧ c.normalizeInputs = .error .noInputs) ∨
      (c.MarksFirst ∧ c.normalizeInputs = .ok (c, false)) ∨
      ∃ last, c.inputWires.getLast? = some last ∧ ¬c.MarksFirst ∧ c.normalizeInputs =
        (shiftInputs c.internalWires last c.inputWires).map fun pairs ↦ (c.movedBy pairs, true) := by
  cases hinputs : c.inputs with
  | nil =>
    refine .inl ⟨rfl, ?_⟩
    rw [normalizeInputs, hinputs]
    rfl
  | cons i rest =>
    right
    have hlast := List.getLast?_eq_some_getLast (List.cons_ne_nil i rest)
    by_cases hmark : Text.occursIn oneMark i.note = true
    · left
      constructor
      · exact ⟨i, by rw [hinputs]; rfl, Text.occursIn_iff.mp hmark⟩
      · rw [normalizeInputs, hinputs, hlast]
        exact if_pos hmark
    · right
      refine ⟨((i :: rest).getLast (List.cons_ne_nil i rest)).wire, ?_, ?_, ?_⟩
      · rw [inputWires, hinputs, List.getLast?_map, hlast]
        rfl
      · rintro ⟨i', hi', hmark'⟩
        rw [hinputs] at hi'
        obtain rfl := Option.some.inj hi'
        exact hmark (Text.occursIn_iff.mpr hmark')
      · rw [normalizeInputs, hinputs, hlast]
        dsimp only [List.head?_cons]
        rw [if_neg hmark]
        cases shiftInputs c.internalWires _ c.inputWires <;> rfl

/-! ## In place -/

/-- Moves the constant input of a circuit in memory, which is written once every primary input has a
free new name: the wires are renamed, then the primary inputs are rotated. -/
def normalizeInputsInPlace : ExceptT Malformed (StateM Circuit) Bool := do
  let c ← get
  match c.inputs.head?, c.inputs.getLast? with
  | some first, some last =>
    if Text.occursIn oneMark first.note then return false
    else
      match shiftInputs c.internalWires last.wire c.inputWires with
      | .error e => throw e
      | .ok pairs =>
        modify (rename (renameBy pairs))
        modify fun c ↦ { c with inputs := lastToFront c.inputs }
        return true
  | _, _ => throw .noInputs

theorem run_normalizeInputsInPlace (c : Circuit) :
    normalizeInputsInPlace.run.run c =
      match c.normalizeInputs with
      | .error e => (.error e, c)
      | .ok (d, changed) => (.ok changed, d) := by
  rw [normalizeInputsInPlace, run_get_bind, normalizeInputs]
  cases c.inputs.head? with
  | none => rfl
  | some first =>
    cases c.inputs.getLast? with
    | none => rfl
    | some last =>
      dsimp only
      by_cases hmark : Text.occursIn oneMark first.note = true
      · rw [if_pos hmark, if_pos hmark]
        rfl
      · rw [if_neg hmark, if_neg hmark]
        cases shiftInputs c.internalWires last.wire c.inputWires with
        | error e => rfl
        | ok pairs => rfl

/-! ## How normalization ends -/

theorem MarksFirst.inputs_ne_nil (h : c.MarksFirst) : c.inputs ≠ [] := by
  obtain ⟨i, hi, -⟩ := h
  intro hnil
  rw [hnil] at hi
  cases hi

/-- Normalization fails, changes nothing or shifts the primary inputs, each in a case of its own. -/
theorem Valid.normalizes (hc : c.Valid) :
    ((∃ e, c.normalizeInputs = .error e) ∧ (c.inputs = [] ∨ ¬c.MarksFirst ∧ c.ShiftBlocked)) ∨
      (c.normalizeInputs = .ok (c, false) ∧ c.MarksFirst) ∨
      ((∃ d m, c.normalizeInputs = .ok (d, true) ∧ Shifted m c d) ∧
        c.inputs ≠ [] ∧ ¬c.MarksFirst ∧ ¬c.ShiftBlocked) := by
  rcases normalizeInputs_eq c with ⟨hnil, h⟩ | ⟨hmarks, h⟩ | ⟨last, hlast, hmarks, h⟩
  · exact .inl ⟨⟨_, h⟩, .inl hnil⟩
  · exact .inr (.inl ⟨h, hmarks⟩)
  · have hiff := exists_shiftInputs_iff_not_blocked hlast
    cases hpairs : shiftInputs c.internalWires last c.inputWires with
    | error e =>
      rw [hpairs] at h hiff
      left
      refine ⟨⟨e, h⟩, .inr ⟨hmarks, ?_⟩⟩
      by_contra hfree
      obtain ⟨pairs, hok⟩ := hiff.mpr hfree
      cases hok
    | ok pairs =>
      rw [hpairs] at h hiff
      right
      right
      refine ⟨⟨_, _, h, hc.shifted hlast hpairs⟩, ?_, hmarks, hiff.mp ⟨pairs, rfl⟩⟩
      intro hnil
      rw [inputWires, hnil] at hlast
      cases hlast

/-- A circuit stays as it is exactly if its first primary input is marked.  If it changes then all
wires are renamed apart and the primary inputs are rotated.  It is refused exactly if it has no
primary inputs, or if they are to be shifted and something is in the way, and then nothing has been
written. -/
theorem normalizeInputs_shifts (hvalid : c.validate = .ok ()) :
    (∀ d, c.normalizeInputs = .ok (d, false) ↔ c.MarksFirst ∧ d = c) ∧
      (∀ d, c.normalizeInputs = .ok (d, true) → ∃ m, Shifted m c d) ∧
      ((∃ e, c.normalizeInputs = .error e) ↔ c.inputs = [] ∨ ¬c.MarksFirst ∧ c.ShiftBlocked) ∧
      normalizeInputsInPlace.run.run c =
        match c.normalizeInputs with
        | .error e => (.error e, c)
        | .ok (d, changed) => (.ok changed, d) := by
  rw [← and_assoc, ← and_assoc]
  refine ⟨?_, run_normalizeInputsInPlace c⟩
  rcases (validate_eq_ok.mp hvalid).normalizes with
    ⟨⟨e, h⟩, hcause⟩ | ⟨h, hmarks⟩ | ⟨⟨d', m, h, hm⟩, hne, hmarks, hfree⟩
  · rw [h]
    refine ⟨⟨fun d ↦ ⟨nofun, ?_⟩, nofun⟩, fun _ ↦ hcause, fun _ ↦ ⟨e, rfl⟩⟩
    rintro ⟨hmarks, -⟩
    rcases hcause with hnil | ⟨hunmarked, -⟩
    · exact absurd hnil hmarks.inputs_ne_nil
    · exact absurd hmarks hunmarked
  · rw [h]
    refine ⟨⟨fun d ↦ ⟨?_, ?_⟩, nofun⟩, nofun, ?_⟩
    · intro hd
      obtain ⟨rfl, -⟩ := Prod.mk.inj (Except.ok.inj hd)
      exact ⟨hmarks, rfl⟩
    · rintro ⟨-, rfl⟩
      rfl
    · rintro (hnil | ⟨hunmarked, -⟩)
      · exact absurd hnil hmarks.inputs_ne_nil
      · exact absurd hmarks hunmarked
  · rw [h]
    refine ⟨⟨fun d ↦ ⟨nofun, ?_⟩, ?_⟩, nofun, ?_⟩
    · rintro ⟨hmarked, -⟩
      exact absurd hmarked hmarks
    · intro d hd
      obtain ⟨rfl, -⟩ := Prod.mk.inj (Except.ok.inj hd)
      exact ⟨m, hm⟩
    · rintro (hnil | ⟨-, hblocked⟩)
      · exact absurd hnil hne
      · exact absurd hblocked hfree

/-- The new numbers of the first two primary inputs are old numbers of others. -/
def overlappingInputs : Circuit where
  inputs := [⟨1, []⟩, ⟨0, []⟩, ⟨2, oneMark⟩]
  gates := [⟨.quadratic (.product (.var 1) (.var 2)), [1, 2], [5], []⟩, ⟨.add, [0, 5], [7], []⟩]
  outputs := [7, 0]

/-- The new number of the first primary input belongs to a gate. -/
def takenNumber : Circuit where
  inputs := [⟨0, []⟩, ⟨5, []⟩]
  gates := [⟨.mul, [0, 5], [1], []⟩]
  outputs := [1]

theorem normalizeInputs_shifts_overlappingInputs :
    overlappingInputs.validate = .ok () ∧ takenNumber.validate = .ok () ∧
      (∃ d m, overlappingInputs.normalizeInputs = .ok (d, true) ∧ d.inputWires = [0, 2, 1] ∧
        Shifted m overlappingInputs d) ∧
      ∃ e, takenNumber.normalizeInputs = .error e ∧
        normalizeInputsInPlace.run.run takenNumber = (.error e, takenNumber) := by
  have hvalid : overlappingInputs.validate = .ok () := by decide +kernel
  have htaken : takenNumber.validate = .ok () := by decide
  refine ⟨hvalid, htaken, ?_, ?_⟩
  · obtain ⟨⟨d, changed⟩, h, hd⟩ := exists_ok_of_any (x := overlappingInputs.normalizeInputs)
      (P := fun x ↦ decide (x.1.inputWires = [0, 2, 1] ∧ x.2 = true)) (by decide +kernel)
    obtain ⟨hinputs, rfl⟩ := of_decide_eq_true hd
    obtain ⟨m, hm⟩ := (normalizeInputs_shifts hvalid).2.1 d h
    exact ⟨d, m, h, hinputs, hm⟩
  · obtain ⟨-, -, hfails, hrun⟩ := normalizeInputs_shifts htaken
    have hblocked : takenNumber.ShiftBlocked := .inr ⟨0, by decide, 1, by decide, by decide, rfl⟩
    have hmarks : ¬takenNumber.MarksFirst := by
      rintro ⟨i, hi, hmark⟩
      obtain rfl := Option.some.inj hi
      revert hmark
      decide
    obtain ⟨e, he⟩ := hfails.mpr (.inr ⟨hmarks, hblocked⟩)
    rw [he] at hrun
    exact ⟨e, he, hrun⟩

end Circuit

end Quadratize
