import Mathlib.Data.List.FinRange
import Quadratize.Proofs.Circuit.Layers

/-!
# Layers of positions

A circuit in memory is sorted by the positions of its gates: positions are put into layers while the
gates stay where they are, and only when every gate has its place are they moved there, each taken
out of its old position once.  No position is listed twice and none is left out, so the gates come
to stand in the layers of the circuit; if gates remain that wait, none has been moved.
-/

namespace Quadratize

theorem eraseDups_of_nodup {α : Type} [BEq α] [LawfulBEq α] {l : List α} (h : l.Nodup) :
    l.eraseDups = l := by
  induction l with
  | nil => rfl
  | cons a l ih =>
    obtain ⟨ha, hl⟩ := List.nodup_cons.mp h
    have hkeep : l.filter (fun b ↦ !b == a) = l := by
      rw [List.filter_eq_self]
      rintro b hb
      rw [Bool.not_eq_true', beq_eq_false_iff_ne]
      rintro rfl
      exact ha hb
    rw [List.eraseDups_cons, hkeep, ih hl]

/-- If some elements are kept then fewer are left. -/
theorem length_filter_not_lt {α : Type} {p : α → Bool} {l : List α} (h : l.filter p ≠ []) :
    (l.filter (!p ·)).length < l.length := by
  obtain ⟨a, ha⟩ := List.exists_mem_of_ne_nil _ h
  obtain ⟨hmem, hp⟩ := List.mem_filter.mp ha
  rw [List.length_filter_lt_length_iff_exists]
  refine ⟨a, hmem, ?_⟩
  rw [hp]
  decide

namespace Circuit

theorem isReady_iff {ready : List Wire} {g : Gate} :
    isReady ready g = true ↔ g.ins ⊆ ready := by
  rw [isReady, List.all_eq_true]
  constructor
  · intro h w hw
    exact of_decide_eq_true (h w hw)
  · intro h w hw
    exact decide_eq_true (h hw)

theorem length_waitingGates {ready : List Wire} {gates : List Gate}
    (h : readyGates ready gates ≠ []) : (waitingGates ready gates).length < gates.length :=
  length_filter_not_lt h

/-- A layer takes the gates that are ready, and the others follow in the layers after it. -/
theorem layered_cons (ready : List Wire) (g : Gate) (rest : List Gate) :
    layered ready (g :: rest) =
      if readyGates ready (g :: rest) = [] then .error (.stuck g)
      else (layered (ready ++ (readyGates ready (g :: rest)).flatMap Gate.outs)
        (waitingGates ready (g :: rest))).map (readyGates ready (g :: rest) ++ ·) := by
  rw [layered]
  by_cases hready : readyGates ready (g :: rest) = []
  · have hwait : waitingGates ready (g :: rest) = g :: rest := by
      apply List.filter_eq_self.mpr
      intro d hd
      rw [Bool.not_eq_true']
      exact Bool.eq_false_of_not_eq_true (List.filter_eq_nil_iff.mp hready d hd)
    rw [if_pos hready, dif_neg]
    rw [hwait]
    exact Nat.lt_irrefl _
  · rw [if_neg hready, dif_pos (length_waitingGates hready)]
    rfl

/-- How far gates have been put into layers: the wires that are ready, and the positions of the
gates that have their place and of those that wait. -/
structure Layering (gates : List Gate) where
  ready : List Wire
  placed : List (Fin gates.length)
  todo : List (Fin gates.length)

namespace Layering

variable {gates : List Gate}

/-- The positions of the waiting gates whose inputs are ready. -/
def layer (s : Layering gates) : List (Fin gates.length) :=
  s.todo.filter fun p ↦ isReady s.ready (gates.get p)

/-- The positions of the other waiting gates. -/
def rest (s : Layering gates) : List (Fin gates.length) :=
  s.todo.filter fun p ↦ !isReady s.ready (gates.get p)

/-- Places a layer, whose outputs are then ready. -/
def place (s : Layering gates) : Layering gates where
  ready := s.ready ++ s.layer.flatMap fun p ↦ (gates.get p).outs
  placed := s.placed ++ s.layer
  todo := s.rest

theorem length_place {s : Layering gates} (h : s.layer ≠ []) :
    s.place.todo.length < s.todo.length :=
  length_filter_not_lt h

/-- Places layers until no gate waits, and fails at the first gate that waits when a layer is
empty. -/
def run (s : Layering gates) : Except Malformed (List (Fin gates.length)) :=
  match s.todo with
  | [] => .ok s.placed
  | p :: _ => if _h : s.layer = [] then .error (.stuck (gates.get p)) else run s.place
termination_by s.todo.length
decreasing_by exact length_place _h

/-- The start: the primary inputs are ready and all gates wait. -/
def start (c : Circuit) : Layering c.gates where
  ready := c.inputWires
  placed := []
  todo := List.finRange c.gates.length

/-! ## Positions and gates -/

theorem map_get_layer (s : Layering gates) :
    s.layer.map gates.get = readyGates s.ready (s.todo.map gates.get) := by
  rw [layer, readyGates, List.filter_map]
  rfl

theorem map_get_rest (s : Layering gates) :
    s.rest.map gates.get = waitingGates s.ready (s.todo.map gates.get) := by
  rw [rest, waitingGates, List.filter_map]
  rfl

theorem place_ready (s : Layering gates) :
    s.place.ready =
      s.ready ++ (readyGates s.ready (s.todo.map gates.get)).flatMap Gate.outs := by
  rw [← map_get_layer, List.flatMap_map]
  rfl

/-- Placing a layer divides the waiting positions. -/
theorem place_perm (s : Layering gates) :
    (s.place.placed ++ s.place.todo).Perm (s.placed ++ s.todo) := by
  change (s.placed ++ s.layer ++ s.rest).Perm _
  rw [List.append_assoc]
  exact (List.filter_append_perm _ _).append_left s.placed

theorem run_perm {s : Layering gates} {order : List (Fin gates.length)} (h : s.run = .ok order) :
    order.Perm (s.placed ++ s.todo) := by
  fun_induction run s with
  | case1 s htodo =>
    obtain rfl := Except.ok.inj h
    rw [htodo, List.append_nil]
  | case2 s p rest htodo hlayer => cases h
  | case3 s p rest htodo hlayer ih => exact (ih h).trans s.place_perm

/-- The gates at the listed positions are those that were placed before and then the layers. -/
theorem map_get_run (s : Layering gates) :
    s.run.map (·.map gates.get) =
      (layered s.ready (s.todo.map gates.get)).map (s.placed.map gates.get ++ ·) := by
  fun_induction run s with
  | case1 s htodo =>
    rw [htodo, List.map_nil, layered]
    simp only [Except.map, List.append_nil]
  | case2 s p rest htodo hlayer =>
    have hready := s.map_get_layer
    rw [hlayer, List.map_nil] at hready
    rw [htodo, List.map_cons] at hready ⊢
    rw [layered_cons, if_pos hready.symm]
    rfl
  | case3 s p rest htodo hlayer ih =>
    have hready : readyGates s.ready (s.todo.map gates.get) ≠ [] := by
      rw [← map_get_layer]
      exact fun h ↦ hlayer (List.map_eq_nil_iff.mp h)
    rw [ih, s.place_ready]
    change Except.map _ (layered _ (s.rest.map gates.get)) = _
    rw [map_get_rest]
    change Except.map ((s.placed ++ s.layer).map gates.get ++ ·) _ = _
    rw [List.map_append, map_get_layer]
    rw [htodo, List.map_cons] at hready ⊢
    rw [layered_cons, if_neg hready]
    cases layered (s.ready ++ (readyGates s.ready _).flatMap Gate.outs) (waitingGates s.ready _) with
    | error e => rfl
    | ok tail => exact congrArg Except.ok (List.append_assoc _ _ _)

/-- From the start, the gates at the listed positions are the layers of the circuit. -/
theorem map_get_run_start (c : Circuit) :
    (start c).run.map (·.map c.gates.get) = layered c.inputWires c.gates := by
  rw [map_get_run]
  change (layered c.inputWires ((List.finRange c.gates.length).map c.gates.get)).map id = _
  rw [List.map_get_finRange]
  cases layered c.inputWires c.gates with
  | error e => rfl
  | ok sorted => rfl

theorem nodup_run_start {c : Circuit} {order : List (Fin c.gates.length)}
    (h : (start c).run = .ok order) : order.Nodup :=
  (run_perm h).nodup_iff.mpr (List.nodup_finRange c.gates.length)

end Layering

/-- Listing positions, each once, takes the gates there. -/
theorem reorder_map_val (c : Circuit) {order : List (Fin c.gates.length)} (h : order.Nodup) :
    reorder (order.map Fin.val) c = { c with gates := order.map c.gates.get } := by
  have hvals : (order.map Fin.val).Nodup := h.map Fin.val_injective
  rw [reorder, eraseDups_of_nodup hvals, List.filterMap_map]
  congr 1
  rw [← List.filterMap_eq_map]
  apply List.filterMap_congr
  intro p _
  exact List.getElem?_eq_getElem p.isLt

/-- Puts the declared outputs into ascending order. -/
def sortOutputs (c : Circuit) : Circuit :=
  { c with outputs := c.outputs.mergeSort fun v w ↦ v.id ≤ w.id }

/-- Sorts a circuit in memory, which is written once every gate has its place. -/
def sortGatesInPlace : ExceptT Malformed (StateM Circuit) Unit := do
  let c ← get
  match (Layering.start c).run with
  | .error e => throw e
  | .ok order =>
    modify (reorder (order.map Fin.val))
    modify sortOutputs

theorem run_sortGatesInPlace (c : Circuit) :
    sortGatesInPlace.run.run c =
      match c.sortGates with
      | .error e => (.error e, c)
      | .ok d => (.ok (), d) := by
  rw [sortGatesInPlace, run_get_bind, sortGates, ← Layering.map_get_run_start]
  cases hrun : (Layering.start c).run with
  | error e => rfl
  | ok order =>
    show (Except.ok (), sortOutputs (reorder (order.map Fin.val) c)) = _
    rw [reorder_map_val c (Layering.nodup_run_start hrun)]
    rfl

theorem run_sortGatesInPlace_eq_ok {c d : Circuit} :
    sortGatesInPlace.run.run c = (.ok (), d) ↔ c.sortGates = .ok d := by
  rw [run_sortGatesInPlace]
  cases c.sortGates with
  | error e => exact ⟨nofun, nofun⟩
  | ok d' =>
    constructor
    · intro h
      exact congrArg _ (Prod.mk.inj h).2
    · intro h
      exact congrArg _ (Except.ok.inj h)

end Circuit

end Quadratize
