import Quadratize.Circuit.Error

/-!
# Numbering wires

Wires are numbered anew without gaps: the primary inputs, then the outputs of gates in the order
of a breadth-first visit that starts at the primary inputs, then the declared outputs.
-/

namespace Quadratize

/-- When the visit reaches a gate. -/
inductive WireOrder
  /-- When all of its inputs have been discovered. -/
  | allInputsReady
  /-- When one of its inputs has been discovered; readers of declared outputs are not followed. -/
  | firstReadyInput
deriving DecidableEq

/-- The state of a visit: the wires in the order of their numbers, for each gate the number of its
inputs that are not discovered, and the positions of the gates to be visited next. -/
structure Visit where
  numbered : List Wire
  pending : List Nat
  queue : List Nat
deriving DecidableEq

namespace Visit

/-- Gives a wire the next number, unless it has one. -/
def addNumber (ws : List Wire) (w : Wire) : List Wire :=
  if w ∈ ws then ws else ws ++ [w]

/-- Gives a wire a number. -/
def number (v : Visit) (w : Wire) : Visit :=
  { v with numbered := addNumber v.numbered w }

/-- Tells a gate that one of its inputs has been discovered. -/
def notify (order : WireOrder) (v : Visit) (p : Nat) : Visit :=
  match order with
  | .firstReadyInput => { v with queue := v.queue ++ [p] }
  | .allInputsReady =>
    let left := v.pending.getD p 0 - 1
    { v with
      pending := v.pending.set p left
      queue := if left = 0 then v.queue ++ [p] else v.queue }

/-- Tells every reader of a wire that the wire has been discovered. -/
def discover (order : WireOrder) (gates : List Gate) (v : Visit) (w : Wire) : Visit :=
  (Gate.consumers gates w).foldl (notify order) v

/-- Numbers and discovers an output of a visited gate. Declared outputs get their numbers later. -/
def reach (order : WireOrder) (c : Circuit) (v : Visit) (w : Wire) : Visit :=
  if w ∈ c.outputs then
    match order with
    | .allInputsReady => v.discover order c.gates w
    | .firstReadyInput => v
  else (v.number w).discover order c.gates w

/-- The first gate in a queue that has not been reached, and the queue behind it. -/
def next? (waiting : List (Gate × Nat)) : List Nat → Option ((Gate × Nat) × List Nat)
  | [] => none
  | p :: queue =>
    match waiting.find? (·.2 == p) with
    | some g => some (g, queue)
    | none => next? waiting queue

theorem mem_of_next? {waiting : List (Gate × Nat)} {queue rest : List Nat} {g : Gate × Nat}
    (h : next? waiting queue = some (g, rest)) : g ∈ waiting := by
  induction queue with
  | nil => cases h
  | cons p queue ih =>
    unfold next? at h
    split at h
    · rename_i hfind
      cases h
      exact List.mem_of_find?_eq_some hfind
    · exact ih h

/-- The gates at other positions. -/
def others (p : Nat) (waiting : List (Gate × Nat)) : List (Gate × Nat) :=
  waiting.filter (·.2 != p)

theorem length_others {waiting : List (Gate × Nat)} {g : Gate × Nat} (h : g ∈ waiting) :
    (others g.2 waiting).length < waiting.length :=
  List.length_filter_lt_length_iff_exists.mpr ⟨g, h, by simp⟩

/-- Visits the gates in the queue. The first result holds the gates that were not reached. -/
def run (order : WireOrder) (c : Circuit) (waiting : List (Gate × Nat)) (v : Visit) :
    List (Gate × Nat) × Visit :=
  match _h : next? waiting v.queue with
  | none => (waiting, { v with queue := [] })
  | some ((g, p), queue) =>
    run order c (others p waiting) (g.outs.foldl (reach order c) { v with queue := queue })
termination_by waiting.length
decreasing_by exact length_others (mem_of_next? _h)

/-- The state at the start: the primary inputs are numbered and discovered, and gates without
inputs are in the queue. -/
def start (order : WireOrder) (c : Circuit) : Visit :=
  c.inputWires.foldl (fun v w ↦ v.discover order c.gates w)
    { numbered := c.inputWires.foldl addNumber []
      pending := c.gates.map fun g ↦ g.ins.eraseDups.length
      queue := (c.gates.zipIdx.filter fun (g, _) ↦ g.ins.isEmpty).map (·.2) }

end Visit

namespace Circuit

/-- The wire with the number of `w` in the list; a wire that is not listed keeps its number. -/
def numberIn (ws : List Wire) (w : Wire) : Wire :=
  ((ws.idxOf? w).bind Wire.ofNat?).getD w

/-- The wires in the order of their new numbers. -/
def numbering (order : WireOrder) (c : Circuit) : Except Malformed (List Wire) :=
  match Visit.run order c c.gates.zipIdx (Visit.start order c) with
  | ((g, _) :: _, _) => .error (.unreachable g)
  | ([], v) =>
    let numbered := c.outputs.foldl Visit.addNumber v.numbered
    match c.wires.find? (· ∉ numbered) with
    | some w => .error (.neverAssigned w)
    | none => .ok numbered

/-- Numbers the wires anew. The second result lists the old wires in the order of their new
numbers. -/
def renumber (order : WireOrder) (c : Circuit) : Except Malformed (Circuit × List Wire) := do
  let numbered ← c.numbering order
  return (c.rename (numberIn numbered), numbered)

end Circuit

end Quadratize
