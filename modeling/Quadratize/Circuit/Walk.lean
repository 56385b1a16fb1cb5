import Quadratize.Circuit.Expansion

/-!
# Walks through linear gates

The linear gates behind a wire are visited depth first, with a stack in the place of recursion. A
gate is entered to have the gates that it reads from expanded, and it is left when they are. A gate
may be on the stack many times; the visits that come after it has become known are skipped.
-/

namespace Quadratize

namespace Expander

/-- What is to be done with the gate at a position. -/
inductive Visit
  /-- To have the gates that it needs expanded first. -/
  | enter (p : Nat)
  /-- To combine its operands. -/
  | leave (p : Nat)
deriving DecidableEq

/-- The position of the gate. -/
def Visit.gate : Visit → Nat
  | enter p | leave p => p

/-- A walk through the gates behind a wire: the visits to come, and the gates that have been entered
and not left. -/
structure Walk where
  stack : List Visit
  waiting : List Nat := []
  expander : Expander
deriving DecidableEq

namespace Walk

/-- What a step of a walk leads to. -/
inductive Progress
  | more (t : Walk)
  | ended (failure : Option CircuitError) (e : Expander)
deriving DecidableEq

/-- Enters a gate. The gates that it needs are visited before it is left; to need one that waits
itself is to depend on itself. -/
def enter (gates : List Gate) (p : Nat) (g : Gate) (t : Walk) : Progress :=
  let waiting := t.waiting.insert p
  let e := t.expander.mark p
  let needed := e.needed gates g
  if needed.any (· ∈ waiting) then .ended (some (.malformed (.selfDependent g))) e
  else .more ⟨needed.reverse.map .enter ++ .leave p :: t.stack, waiting, e⟩

/-- Leaves a gate whose operands are known. -/
def leave (gates : List Gate) (p : Nat) (g : Gate) (t : Walk) : Progress :=
  match g.ins.mapM (t.expander.operand gates) with
  | .error err => .ended (some err) t.expander
  | .ok xs =>
    match combine? g.op xs with
    | some a => .more ⟨t.stack, t.waiting.erase p, t.expander.learn p a⟩
    | none => .ended (some (.violation g .notAffine)) t.expander

/-- Makes the visit on top of the stack, unless the gate has become known since. -/
def step (gates : List Gate) (t : Walk) : Progress :=
  match t.stack with
  | [] => .ended none t.expander
  | v :: rest =>
    if t.expander.knows v.gate then .more { t with stack := rest }
    else
      match gates[v.gate]?, v with
      | none, _ => .ended (some (.missing v.gate)) t.expander
      | some g, .enter p => enter gates p g { t with stack := rest }
      | some g, .leave p => leave gates p g { t with stack := rest }

/-- What a step does that does not end the walk. -/
inductive Moves (gates : List Gate) : Walk → Walk → Prop
  | skip {v : Visit} {rest : List Visit} {waiting : List Nat} {e : Expander}
    (h : e.knows v.gate = true) : Moves gates ⟨v :: rest, waiting, e⟩ ⟨rest, waiting, e⟩
  | enter {p : Nat} {g : Gate} {rest : List Visit} {waiting : List Nat} {e : Expander}
    (hnew : e.knows p = false) (hg : gates[p]? = some g)
    (h : ∀ q ∈ (e.mark p).needed gates g, q ∉ waiting.insert p) :
    Moves gates ⟨.enter p :: rest, waiting, e⟩
      ⟨((e.mark p).needed gates g).reverse.map .enter ++ .leave p :: rest, waiting.insert p,
        e.mark p⟩
  | leave {p : Nat} {g : Gate} {xs : List (Affine Wire)} {a : Affine Wire} {rest : List Visit}
    {waiting : List Nat} {e : Expander} (hnew : e.knows p = false) (hg : gates[p]? = some g)
    (hxs : g.ins.mapM (e.operand gates) = .ok xs) (h : combine? g.op xs = some a) :
    Moves gates ⟨.leave p :: rest, waiting, e⟩ ⟨rest, waiting.erase p, e.learn p a⟩

variable {gates : List Gate} {t u : Walk}

theorem moves_of_step (h : step gates t = .more u) : Moves gates t u := by
  obtain ⟨stack, waiting, e⟩ := t
  cases stack with
  | nil => cases h
  | cons v rest =>
    rw [step] at h
    dsimp only at h
    split at h
    · rename_i hknown
      obtain rfl := Progress.more.inj h
      exact .skip hknown
    · rename_i hknown
      have hnew : e.knows v.gate = false := by simpa using hknown
      split at h
      · cases h
      · rename_i g p hg
        rw [Walk.enter] at h
        split at h
        · cases h
        · rename_i hany
          obtain rfl := Progress.more.inj h
          exact .enter hnew hg fun q hq hwait ↦ hany <| List.any_eq_true.mpr
            ⟨q, hq, decide_eq_true hwait⟩
      · rename_i g p hg
        rw [Walk.leave] at h
        split at h
        · cases h
        · rename_i xs hxs
          split at h
          · rename_i a ha
            obtain rfl := Progress.more.inj h
            exact .leave hnew hg hxs ha
          · cases h

/-! ## Termination

The visits of a gate weigh the more the more gates are still to be entered. A gate that is entered
for the first time leaves fewer of them, so that the visits that it puts on the stack weigh less
than its own, however many they are. On a walk from a single gate no gate is entered while it waits;
on other walks the visit of a gate that waits weighs one step more, since it puts only visits of
gates on the stack that do not wait. -/

/-- Whether a gate is neither known nor waits. -/
def isNew (t : Walk) (p : Nat) : Bool :=
  !t.expander.knows p && !t.waiting.contains p

/-- The number of gates that are still to be entered, and one more for a gate that waits. -/
def rank (gates : List Gate) (t : Walk) (p : Nat) : Nat :=
  (List.range gates.length).countP t.isNew + if p ∈ t.waiting then 1 else 0

/-- More than the number of inputs of any gate. -/
def base (gates : List Gate) : Nat :=
  (gates.flatMap (·.ins)).length + 2

/-- The weight of a visit. -/
def visitWeight (gates : List Gate) (t : Walk) : Visit → Nat
  | .enter p => (base gates).pow (rank gates t p)
  | .leave _ => 1

/-- The weight of visits of gates of which some wait. -/
def stackWeight (gates : List Gate) (t : Walk) : List Visit → Nat
  | [] => 0
  | v :: rest => visitWeight gates t v + stackWeight gates t rest

/-- The weight of the visits to come. -/
def weight (gates : List Gate) (t : Walk) : Nat :=
  stackWeight gates t t.stack

theorem base_pos : 0 < base gates :=
  Nat.succ_pos _

theorem length_needed_le (e : Expander) {g : Gate} (hg : g ∈ gates) :
    (e.needed gates g).length + 2 ≤ base gates := by
  have hneeded : (e.needed gates g).length ≤ g.ins.length :=
    Nat.le_trans (List.length_filter_le _ _) (List.length_filterMap_le _ _)
  have hins : g.ins.length ≤ (gates.flatMap (·.ins)).length := by
    obtain ⟨before, after, rfl⟩ := List.append_of_mem hg
    rw [List.flatMap_append, List.flatMap_cons, List.length_append, List.length_append]
    omega
  exact Nat.add_le_add_right (Nat.le_trans hneeded hins) 2

theorem visitWeight_pos (v : Visit) : 0 < visitWeight gates t v := by
  cases v with
  | enter p => exact Nat.pow_pos base_pos
  | leave p => exact Nat.one_pos

theorem stackWeight_le (h : ∀ q, rank gates u q ≤ rank gates t q) (vs : List Visit) :
    stackWeight gates u vs ≤ stackWeight gates t vs := by
  induction vs with
  | nil => exact Nat.le_refl 0
  | cons v vs ih =>
    refine Nat.add_le_add ?_ ih
    cases v with
    | enter q => exact Nat.pow_le_pow_right base_pos (h q)
    | leave q => exact Nat.le_refl 1

theorem stackWeight_enter {qs : List Nat} {vs : List Visit} {n : Nat}
    (h : ∀ q ∈ qs, rank gates t q = n) : stackWeight gates t (qs.map .enter ++ vs) =
      qs.length * (base gates).pow n + stackWeight gates t vs := by
  induction qs with
  | nil => rw [List.length_nil, Nat.zero_mul, Nat.zero_add, List.map_nil, List.nil_append]
  | cons q qs ih =>
    have hq : visitWeight gates t (.enter q) = (base gates).pow n :=
      congrArg (base gates).pow (h q List.mem_cons_self)
    rw [List.map_cons, List.cons_append, stackWeight, hq,
      ih fun r hr ↦ h r (List.mem_cons_of_mem _ hr), List.length_cons, Nat.succ_mul]
    omega

/-- Entering a gate lowers the ranks of all gates but those that wait from now on, and these had a
higher one before. -/
theorem rank_enter {p : Nat} {g : Gate} (hg : gates[p]? = some g)
    (hnew : t.expander.knows p = false) (hknows : ∀ q, u.expander.knows q = t.expander.knows q)
    (hwaits : u.waiting = t.waiting.insert p) :
    (List.range gates.length).countP u.isNew + 1 ≤ rank gates t p ∧
      ∀ q, rank gates u q ≤ rank gates t q := by
  have hnews (q : Nat) : u.isNew q = true ↔ t.isNew q = true ∧ q ≠ p := by
    simp [isNew, hknows, hwaits, and_assoc, and_comm]
  have hle : (List.range gates.length).countP u.isNew ≤
      (List.range gates.length).countP t.isNew :=
    List.countP_mono_left fun q _ hq ↦ ((hnews q).mp hq).1
  have hlt : (List.range gates.length).countP u.isNew + 1 ≤ rank gates t p := by
    unfold rank
    split
    · exact Nat.succ_le_succ hle
    · rename_i hwait
      have hfewer : (List.range gates.length).filter u.isNew =
          ((List.range gates.length).filter t.isNew).filter (· != p) := by
        rw [List.filter_filter]
        refine List.filter_congr fun q _ ↦ Bool.eq_iff_iff.mpr ?_
        rw [hnews, Bool.and_eq_true, bne_iff_ne, And.comm]
      rw [List.countP_eq_length_filter, List.countP_eq_length_filter, hfewer]
      refine List.length_filter_lt_length_iff_exists.mpr ⟨p, List.mem_filter.mpr ⟨?_, ?_⟩, by simp⟩
      · exact List.mem_range.mpr (List.getElem?_eq_some_iff.mp hg).1
      · simp [isNew, hnew, hwait]
  refine ⟨hlt, fun q ↦ ?_⟩
  by_cases hq : q = p
  · subst hq
    simpa [rank, hwaits] using hlt
  · simpa [rank, hwaits, hq] using hle

theorem rank_leave {p : Nat} {a : Affine Wire} {rest : List Visit} {waiting : List Nat}
    {e : Expander} (q : Nat) : rank gates ⟨rest, waiting.erase p, e.learn p a⟩ q ≤
      rank gates ⟨.leave p :: rest, waiting, e⟩ q := by
  refine Nat.add_le_add (List.countP_mono_left fun r _ hr ↦ ?_) ?_
  · simp only [isNew, Bool.and_eq_true, Bool.not_eq_true', ← Bool.not_eq_true, knows_learn,
      not_or, List.contains_iff_mem] at hr ⊢
    exact ⟨hr.1.2, fun hwait ↦ hr.2 ((List.mem_erase_of_ne hr.1.1).mpr hwait)⟩
  · dsimp only
    split
    · rename_i hq
      exact Nat.le_of_eq (if_pos (List.mem_of_mem_erase hq)).symm
    · exact Nat.zero_le _

/-- Visits of low rank in the place of one of higher rank are lighter, however many they are. -/
theorem weight_enter {p n : Nat} {qs : List Nat} {rest : List Visit}
    (ht : t.stack = .enter p :: rest) (hu : u.stack = qs.map .enter ++ .leave p :: rest)
    (hqs : qs.length + 2 ≤ base gates) (hlt : n + 1 ≤ rank gates t p)
    (hle : ∀ q, rank gates u q ≤ rank gates t q) (hasked : ∀ q ∈ qs, rank gates u q = n) :
    weight gates u < weight gates t := by
  have hweight : weight gates u =
      qs.length * (base gates).pow n + (1 + stackWeight gates u rest) := by
    rw [weight, hu, stackWeight_enter hasked]
    rfl
  have hrest := stackWeight_le hle rest
  have hpos : 0 < (base gates).pow n := Nat.pow_pos base_pos
  have hroom : qs.length * (base gates).pow n + 2 * (base gates).pow n ≤
      (base gates).pow (rank gates t p) := by
    calc qs.length * (base gates).pow n + 2 * (base gates).pow n
      _ = (qs.length + 2) * (base gates).pow n := (Nat.add_mul ..).symm
      _ ≤ base gates * (base gates).pow n := Nat.mul_le_mul_right _ hqs
      _ = (base gates).pow (n + 1) := Nat.mul_comm ..
      _ ≤ (base gates).pow (rank gates t p) := Nat.pow_le_pow_right base_pos hlt
  rw [hweight, weight, ht, stackWeight, visitWeight]
  omega

/-- Every step takes weight off a walk. -/
theorem Moves.weight_lt (h : Moves gates t u) : weight gates u < weight gates t := by
  cases h with
  | @skip v rest waiting e h =>
    have hrank (q : Nat) : rank gates ⟨rest, waiting, e⟩ q ≤ rank gates ⟨v :: rest, waiting, e⟩ q :=
      Nat.le_refl _
    refine Nat.lt_of_le_of_lt (stackWeight_le hrank _) ?_
    exact Nat.lt_add_of_pos_left (visitWeight_pos _)
  | leave hnew hg hxs h =>
    refine Nat.lt_of_le_of_lt (stackWeight_le rank_leave _) ?_
    exact Nat.lt_add_of_pos_left Nat.one_pos
  | @enter p g rest waiting e hnew hg h =>
    have hmem : g ∈ gates := List.mem_of_getElem? hg
    obtain ⟨hlt, hle⟩ := rank_enter (t := ⟨.enter p :: rest, waiting, e⟩)
      (u := ⟨_, waiting.insert p, e.mark p⟩) hg hnew (fun _ ↦ rfl) rfl
    refine weight_enter rfl rfl ?_ hlt hle fun q hq ↦ ?_
    · rw [List.length_reverse]
      exact length_needed_le _ hmem
    · rw [rank, if_neg (h q (List.mem_reverse.mp hq)), Nat.add_zero]

/-- Goes on to the end of a walk. -/
def run (gates : List Gate) (t : Walk) : Option CircuitError × Expander :=
  match _h : step gates t with
  | .more u => run gates u
  | .ended failure e => (failure, e)
termination_by weight gates t
decreasing_by exact (moves_of_step _h).weight_lt

end Walk

/-- The answer to a call for the expansion of a wire, and the expander after it. What has been found
is kept also if the call fails. -/
def answer (gates : List Gate) (e : Expander) (w : Wire) :
    Except CircuitError (Affine Wire) × Expander :=
  match linearProducer? gates w with
  | none => (.ok (Affine.var w), e)
  | some p =>
    match Walk.run gates { stack := [.enter p], expander := e } with
    | (some err, e) => (.error err, e)
    | (none, e) => (e.expansion p, e)

/-- The expansion of a wire, where nothing goes on after a failure. -/
def expand (gates : List Gate) (e : Expander) (w : Wire) :
    Except CircuitError (Affine Wire × Expander) :=
  match e.answer gates w with
  | (.ok a, e) => .ok (a, e)
  | (.error err, _) => .error err

end Expander

end Quadratize
