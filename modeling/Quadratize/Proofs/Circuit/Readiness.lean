import Quadratize.Proofs.Circuit.Positions
import Quadratize.Proofs.Circuit.Renumber

/-!
# Two ways to wait

Counting down the missing inputs of every gate and placing layer after layer come to the same end:
some gates are placed in an order in which each finds its inputs, and each of the others waits for a
wire that no placed gate drives.  The wires that are found are then the least set that holds the
primary inputs and the outputs of each gate whose inputs it holds, so the gates that are left do not
depend on how the others were placed.  Both ways fail exactly where gates are left, and both name
the first of them.
-/

namespace Quadratize

namespace Gate

variable {ready : List Wire} {gates placed left : List Gate}

/-! ## Gates that are left -/

/-- Gates divided into those that are placed, in evaluation order, and those that are left, each of
which waits for a wire that is neither ready nor driven by a placed gate. -/
structure Stalled (ready : List Wire) (gates placed left : List Gate) : Prop where
  perm : (placed ++ left).Perm gates
  sublist : left.Sublist gates
  order : InOrder ins ready placed
  waits : ∀ g ∈ left, ∃ w ∈ g.ins, w ∉ ready ++ placed.flatMap outs

/-- The wires of gates in order are in every set that holds the ready wires and the outputs of each
gate whose inputs it holds. -/
theorem InOrder.subset_of_closed {found : List Wire} (h : InOrder ins ready placed)
    (hready : ready ⊆ found) (hclosed : ∀ g ∈ placed, g.ins ⊆ found → g.outs ⊆ found) :
    ready ++ placed.flatMap outs ⊆ found := by
  induction placed generalizing ready with
  | nil => simpa using hready
  | cons g rest ih =>
    obtain ⟨hg, hrest⟩ := List.forall_mem_cons.mp hclosed
    have houts : g.outs ⊆ found := hg fun w hw ↦ hready (h.1 w hw)
    rw [List.flatMap_cons, ← List.append_assoc]
    exact ih h.2 (List.append_subset.mpr ⟨hready, houts⟩) hrest

/-- Gates in order find their inputs among the wires of all of them. -/
theorem InOrder.ins_subset (h : InOrder ins ready placed) {g : Gate} (hg : g ∈ placed) :
    g.ins ⊆ ready ++ placed.flatMap outs := by
  obtain ⟨before, after, rfl⟩ := List.append_of_mem hg
  intro w hw
  have hfound := h.mem_ready (List.mem_append_right before (List.mem_singleton_self g)) hw
  rw [List.flatMap_append, ← List.append_assoc]
  exact List.mem_append_left _ hfound

/-- A gate is placed if its inputs are found. -/
theorem Stalled.mem_placed (h : Stalled ready gates placed left) {g : Gate} (hg : g ∈ gates)
    (hins : g.ins ⊆ ready ++ placed.flatMap outs) : g ∈ placed := by
  rcases List.mem_append.mp (h.perm.mem_iff.mpr hg) with hmem | hmem
  · exact hmem
  · obtain ⟨w, hw, hnot⟩ := h.waits g hmem
    exact absurd (hins hw) hnot

theorem Stalled.found_subset {placed' left' : List Gate} (h : Stalled ready gates placed left)
    (h' : Stalled ready gates placed' left') :
    ready ++ placed.flatMap outs ⊆ ready ++ placed'.flatMap outs := by
  apply h.order.subset_of_closed (List.subset_append_left _ _)
  intro g hg hins w hw
  have hgates : g ∈ gates := h.perm.mem_iff.mp (List.mem_append_left _ hg)
  apply List.mem_append_right
  exact List.mem_flatMap.mpr ⟨g, h'.mem_placed hgates hins, hw⟩

/-- The gates that are left are those whose inputs are not all found, where they stood. -/
theorem Stalled.left_eq (h : Stalled ready gates placed left) :
    left = Circuit.waitingGates (ready ++ placed.flatMap outs) gates := by
  have hplaced : Circuit.waitingGates (ready ++ placed.flatMap outs) placed = [] := by
    rw [Circuit.waitingGates, List.filter_eq_nil_iff]
    intro g hg
    rw [Circuit.isReady_iff.mpr (h.order.ins_subset hg)]
    decide
  have hleft : Circuit.waitingGates (ready ++ placed.flatMap outs) left = left := by
    rw [Circuit.waitingGates, List.filter_eq_self]
    intro g hg
    obtain ⟨w, hw, hnot⟩ := h.waits g hg
    rw [Bool.not_eq_true', Bool.eq_false_iff, ne_eq, Circuit.isReady_iff]
    exact fun hins ↦ hnot (hins hw)
  have hperm := h.perm.filter fun g ↦ !Circuit.isReady (ready ++ placed.flatMap outs) g
  have hsub := h.sublist.filter fun g ↦ !Circuit.isReady (ready ++ placed.flatMap outs) g
  simp only [Circuit.waitingGates] at hplaced hleft ⊢
  rw [List.filter_append, hplaced, List.nil_append, hleft] at hperm
  rw [hleft] at hsub
  exact hsub.eq_of_length hperm.length_eq

/-- However the gates are placed, the same ones are left. -/
theorem Stalled.left_unique {placed' left' : List Gate} (h : Stalled ready gates placed left)
    (h' : Stalled ready gates placed' left') : left = left' := by
  rw [h.left_eq, h'.left_eq]
  apply List.filter_congr
  intro g _
  congr 1
  rw [Bool.eq_iff_iff, Circuit.isReady_iff, Circuit.isReady_iff]
  constructor
  · intro hins
    exact List.Subset.trans hins (h.found_subset h')
  · intro hins
    exact List.Subset.trans hins (h'.found_subset h)

end Gate

namespace Circuit

open Gate

variable {ready : List Wire} {gates placed left : List Gate} {c d : Circuit}

/-! ## Layers -/

/-- A layer is placed in front of what is placed after it. -/
theorem stalled_of_layer
    (h : Stalled (ready ++ (readyGates ready gates).flatMap outs) (waitingGates ready gates)
      placed left) :
    Stalled ready gates (readyGates ready gates ++ placed) left := by
  constructor
  · rw [List.append_assoc]
    exact (h.perm.append_left _).trans (List.filter_append_perm _ _)
  · exact h.sublist.trans List.filter_sublist
  · apply InOrder.append
    · intro g hg w hw
      exact isReady_iff.mp (List.mem_filter.mp hg).2 hw
    · exact h.order
  · rw [List.flatMap_append, ← List.append_assoc]
    exact h.waits

/-- Where no gate is ready, all are left. -/
theorem stalled_of_readyGates_eq_nil (h : readyGates ready gates = []) :
    Stalled ready gates [] gates := by
  refine ⟨.refl _, .refl _, trivial, ?_⟩
  intro g hg
  have hwait := List.filter_eq_nil_iff.mp h g hg
  simpa [isReady] using hwait

/-- What layers come to. -/
theorem exists_stalled_layered (ready : List Wire) (gates : List Gate) :
    ∃ placed left, Stalled ready gates placed left ∧
      layered ready gates =
        match left with
        | [] => .ok placed
        | g :: _ => .error (.stuck g) := by
  induction hn : gates.length using Nat.strongRecOn generalizing ready gates with
  | ind n ih =>
    cases gates with
    | nil =>
      refine ⟨[], [], ⟨.nil, .refl _, trivial, nofun⟩, ?_⟩
      rw [layered]
    | cons g rest =>
      rw [layered_cons]
      by_cases hready : readyGates ready (g :: rest) = []
      · rw [if_pos hready]
        exact ⟨[], g :: rest, stalled_of_readyGates_eq_nil hready, rfl⟩
      · rw [if_neg hready]
        have hlt := length_waitingGates hready
        obtain ⟨placed, left, hstalled, hlayered⟩ := ih _ (hn ▸ hlt) _ _ rfl
        refine ⟨_, left, stalled_of_layer hstalled, ?_⟩
        rw [hlayered]
        cases left with
        | nil => rfl
        | cons a left => rfl

/-! ## The visit -/

theorem sublist_run (order : WireOrder) (c : Circuit) (waiting : List (Gate × Nat)) (v : Visit) :
    (Visit.run order c waiting v).1.Sublist waiting := by
  fun_induction Visit.run order c waiting v with
  | case1 waiting v hnext => exact .refl _
  | case2 waiting v g p queue hnext ih => exact ih.trans List.filter_sublist

/-- What the visit comes to. -/
theorem exists_stalled_run (hc : c.driven.Nodup) :
    ∃ placed, Stalled c.inputWires c.gates placed
      ((Visit.run .allInputsReady c c.gates.zipIdx (Visit.start .allInputsReady c)).1.map
        Prod.fst) := by
  obtain ⟨placed, hrun, hwait⟩ :=
    Visit.run_spec (Visit.running_start (List.nodup_append.mp hc).1) hc
  have hsub := (sublist_run .allInputsReady c c.gates.zipIdx
    (Visit.start .allInputsReady c)).map Prod.fst
  rw [List.zipIdx_map_fst] at hsub
  refine ⟨placed, hrun.gates, hsub, hrun.order, ?_⟩
  intro g hg
  obtain ⟨x, hx, rfl⟩ := List.mem_map.mp hg
  exact hwait x hx

/-- The numbering fails at the first gate that the visit leaves. -/
theorem numbering_of_left {order : WireOrder} {g : Gate}
    (h : (Visit.run order c c.gates.zipIdx (Visit.start order c)).1.map Prod.fst = g :: left) :
    c.numbering order = .error (.unreachable g) := by
  rw [numbering]
  generalize Visit.run order c c.gates.zipIdx (Visit.start order c) = final at h ⊢
  obtain ⟨waiting, v⟩ := final
  obtain ⟨⟨d, p⟩, rest, rfl, rfl, -⟩ := List.map_eq_cons_iff.mp h
  rfl

/-! ## Agreement -/

theorem orderable_of_stalled (h : Stalled c.inputWires c.gates placed []) : c.Orderable := by
  have hperm := h.perm
  rw [List.append_nil] at hperm
  exact ⟨placed, hperm, h.order⟩

theorem Orderable.left_eq_nil (horder : c.Orderable)
    (h : Stalled c.inputWires c.gates placed left) : left = [] := by
  obtain ⟨order, hperm, horder⟩ := horder
  have hnone : Stalled c.inputWires c.gates order [] :=
    ⟨by rwa [List.append_nil], List.nil_sublist _, horder, nofun⟩
  exact h.left_unique hnone

theorem exists_sortGates_iff : (∃ d, c.sortGates = .ok d) ↔ c.Orderable := by
  constructor
  · rintro ⟨d, h⟩
    obtain ⟨-, hperm, horder, -⟩ := sortGates_spec h
    exact ⟨d.gates, hperm, horder⟩
  · intro h
    obtain ⟨placed, left, hstalled, hlayered⟩ := exists_stalled_layered c.inputWires c.gates
    obtain rfl := h.left_eq_nil hstalled
    rw [sortGates, hlayered]
    exact ⟨_, rfl⟩

theorem Valid.exists_renumber_iff_orderable (hc : c.Valid) :
    (∃ d ws, c.renumber .allInputsReady = .ok (d, ws)) ↔ c.Orderable := by
  rw [hc.exists_renumber_iff, hc.orderable_iff]

/-- Gates that cannot be ordered are rejected both ways, at the same gate. -/
theorem exists_left_of_not_orderable (hc : c.driven.Nodup) (h : ¬c.Orderable) :
    ∃ g ∈ c.gates, c.renumber .allInputsReady = .error (.unreachable g) ∧
      c.sortGates = .error (.stuck g) := by
  obtain ⟨placed, left, hstalled, hlayered⟩ := exists_stalled_layered c.inputWires c.gates
  obtain ⟨visited, hvisited⟩ := exists_stalled_run hc
  have hleft := hvisited.left_unique hstalled
  cases left with
  | nil => exact absurd (orderable_of_stalled hstalled) h
  | cons g left =>
    refine ⟨g, hstalled.sublist.subset List.mem_cons_self, ?_, ?_⟩
    · rw [renumber, numbering_of_left hleft]
      rfl
    · rw [sortGates, hlayered]
      rfl

/-! ## In place -/

theorem run_renumberInPlace_eq_ok {order : WireOrder} {ws : List Wire} :
    (renumberInPlace order).run.run c = (.ok ws, d) ↔ c.renumber order = .ok (d, ws) := by
  rw [run_renumberInPlace]
  cases c.renumber order with
  | error e => exact ⟨nofun, nofun⟩
  | ok x =>
    constructor
    · intro h
      obtain ⟨hws, hd⟩ := Prod.mk.inj h
      exact congrArg _ (Prod.ext hd (Except.ok.inj hws))
    · intro h
      rw [Except.ok.inj h]

/-- Numbering, where the visit waits for all inputs, and sorting succeed on the same circuits, those
whose gates can be put into evaluation order.  On every other circuit both fail at the same gate and
leave the circuit as it was. -/
theorem readiness_agrees (hvalid : c.validate = .ok ()) :
    ((∃ ws d, (renumberInPlace .allInputsReady).run.run c = (.ok ws, d)) ↔ c.Orderable) ∧
    ((∃ d, sortGatesInPlace.run.run c = (.ok (), d)) ↔ c.Orderable) ∧
    (¬c.Orderable → ∃ g ∈ c.gates,
      (renumberInPlace .allInputsReady).run.run c = (.error (.unreachable g), c) ∧
      sortGatesInPlace.run.run c = (.error (.stuck g), c)) := by
  have hc := validate_eq_ok.mp hvalid
  refine ⟨?_, ?_, ?_⟩
  · simp only [run_renumberInPlace_eq_ok]
    rw [exists_comm, hc.exists_renumber_iff_orderable]
  · simp only [run_sortGatesInPlace_eq_ok]
    exact exists_sortGates_iff
  · intro horder
    obtain ⟨g, hg, hrenumber, hsort⟩ := exists_left_of_not_orderable hc.nodup horder
    refine ⟨g, hg, ?_, ?_⟩
    · rw [run_renumberInPlace, hrenumber]
    · rw [run_sortGatesInPlace, hsort]

/-- Gates in the reverse of an evaluation order: one reads nothing, one reads a wire twice, and a
declared output is read again. -/
def backToFront : Circuit where
  inputs := [⟨0, []⟩, ⟨1, []⟩]
  gates := [⟨.mul, [4, 3], [5], []⟩, ⟨.add, [3, 2], [4], []⟩, ⟨.mul, [1, 1], [3], []⟩,
    ⟨.quadratic (.linear (.constant (-1))), [], [2], []⟩]
  outputs := [4, 5]

/-- Two gates that read each other's outputs, behind one that reads primary inputs. -/
def crossedGates : Circuit where
  inputs := [⟨0, []⟩]
  gates := [⟨.mul, [0, 0], [1], []⟩, ⟨.add, [1, 3], [2], []⟩, ⟨.mul, [0, 2], [3], []⟩]
  outputs := [1, 3]

theorem readiness_agrees_backToFront_crossedGates :
    (backToFront.validate = .ok () ∧ backToFront.Orderable ∧
      (∃ ws d, (renumberInPlace .allInputsReady).run.run backToFront = (.ok ws, d)) ∧
      ∃ d, sortGatesInPlace.run.run backToFront = (.ok (), d)) ∧
    crossedGates.validate = .ok () ∧ ¬crossedGates.Orderable ∧
    ∃ g ∈ crossedGates.gates,
      (renumberInPlace .allInputsReady).run.run crossedGates =
        (.error (.unreachable g), crossedGates) ∧
      sortGatesInPlace.run.run crossedGates = (.error (.stuck g), crossedGates) := by
  constructor
  · have hvalid : backToFront.validate = .ok () := by decide
    obtain ⟨hrenumber, hsort, -⟩ := readiness_agrees hvalid
    have horder : backToFront.Orderable :=
      ⟨backToFront.gates.reverse, List.reverse_perm _, by decide, by decide, by decide, by decide,
        trivial⟩
    exact ⟨hvalid, horder, hrenumber.mpr horder, hsort.mpr horder⟩
  · have hvalid : crossedGates.validate = .ok () := by decide
    obtain ⟨-, -, hfail⟩ := readiness_agrees hvalid
    have horder : ¬crossedGates.Orderable := by
      intro h
      obtain ⟨ρ, hρ⟩ := h.acyclic (validate_eq_ok.mp hvalid).nodup
      have hup : ρ 3 < ρ 2 :=
        hρ ⟨.add, [1, 3], [2], []⟩ (by decide) 3 (by decide) 2 (by decide)
      have hdown : ρ 2 < ρ 3 :=
        hρ ⟨.mul, [0, 2], [3], []⟩ (by decide) 2 (by decide) 3 (by decide)
      exact lt_asymm hup hdown
    exact ⟨hvalid, horder, hfail horder⟩

end Circuit

end Quadratize
