import Quadratize.Scalar.Prime

/-!
# Sparse sums

A sparse sum `c₁·k₁ + … + cₙ·kₙ` lists its keys in strictly ascending order and holds no zero
coefficient, so that two sums with the same coefficients are equal.
-/

namespace Quadratize

/-- Keys are ordered by a rank that tells them apart. -/
class Key (κ : Type) where
  rank : κ → Nat
  rank_inj : ∀ {j k : κ}, rank j = rank k → j = k

instance : Key Nat := ⟨id, id⟩

instance {n : Nat} : Key (Fin n) := ⟨Fin.val, Fin.ext⟩

/-- The missing key comes first. -/
instance {κ : Type} [Key κ] : Key (Option κ) where
  rank
    | none => 0
    | some k => Key.rank k + 1
  rank_inj {j k} h := by
    cases j <;> cases k <;> simp at h
    · rfl
    · rw [Key.rank_inj h]

/-- A linear sum of keys in ascending order without zero coefficients. -/
structure Sparse (κ : Type) [Key κ] where
  terms : List (κ × Scalar)
  ascending : terms.Pairwise fun s t ↦ Key.rank s.1 < Key.rank t.1
  nonzero : ∀ t ∈ terms, t.2 ≠ 0
deriving DecidableEq

namespace Sparse

variable {κ ι : Type} [Key κ] [Key ι]

@[ext] theorem ext {s t : Sparse κ} (h : s.terms = t.terms) : s = t := by
  cases s; cases t; cases h; rfl

/-! ## Adding a term -/

/-- Adds `c·k` to an ascending list of terms; a term that cancels disappears. -/
def insertTerm (k : κ) (c : Scalar) : List (κ × Scalar) → List (κ × Scalar)
  | [] => [(k, c)]
  | (j, d) :: rest =>
    if Key.rank k < Key.rank j then (k, c) :: (j, d) :: rest
    else if Key.rank j < Key.rank k then (j, d) :: insertTerm k c rest
    else if d + c = 0 then rest
    else (j, d + c) :: rest

theorem fst_of_mem_insertTerm {k : κ} {c : Scalar} {l : List (κ × Scalar)} {t : κ × Scalar}
    (h : t ∈ insertTerm k c l) : t.1 = k ∨ ∃ u ∈ l, u.1 = t.1 := by
  induction l with
  | nil => simp [insertTerm] at h; exact .inl (h ▸ rfl)
  | cons u rest ih =>
    obtain ⟨j, d⟩ := u
    unfold insertTerm at h
    split at h
    · rcases List.mem_cons.mp h with rfl | h
      · exact .inl rfl
      · exact .inr ⟨t, h, rfl⟩
    · split at h
      · rcases List.mem_cons.mp h with rfl | h
        · exact .inr ⟨_, List.mem_cons_self, rfl⟩
        · rcases ih h with h | ⟨u, hu, he⟩
          · exact .inl h
          · exact .inr ⟨u, List.mem_cons_of_mem _ hu, he⟩
      · split at h
        · exact .inr ⟨t, List.mem_cons_of_mem _ h, rfl⟩
        · rcases List.mem_cons.mp h with rfl | h
          · exact .inr ⟨_, List.mem_cons_self, rfl⟩
          · exact .inr ⟨t, List.mem_cons_of_mem _ h, rfl⟩

theorem ascending_insertTerm (k : κ) (c : Scalar) {l : List (κ × Scalar)}
    (h : l.Pairwise fun s t ↦ Key.rank s.1 < Key.rank t.1) :
    (insertTerm k c l).Pairwise fun s t ↦ Key.rank s.1 < Key.rank t.1 := by
  induction l with
  | nil => simp [insertTerm]
  | cons u rest ih =>
    obtain ⟨j, d⟩ := u
    obtain ⟨hj, hr⟩ := List.pairwise_cons.mp h
    unfold insertTerm
    split
    · rename_i hk
      refine List.pairwise_cons.mpr ⟨fun t ht ↦ ?_, h⟩
      rcases List.mem_cons.mp ht with rfl | ht
      · exact hk
      · exact Nat.lt_trans hk (hj t ht)
    · split
      · rename_i hk
        refine List.pairwise_cons.mpr ⟨fun t ht ↦ ?_, ih hr⟩
        rcases fst_of_mem_insertTerm ht with he | ⟨u, hu, he⟩
        · exact he ▸ hk
        · exact he ▸ hj u hu
      · split
        · exact hr
        · exact List.pairwise_cons.mpr ⟨hj, hr⟩

theorem nonzero_insertTerm {k : κ} {c : Scalar} (hc : c ≠ 0) {l : List (κ × Scalar)}
    (h : ∀ t ∈ l, t.2 ≠ 0) : ∀ t ∈ insertTerm k c l, t.2 ≠ 0 := by
  induction l with
  | nil => simpa [insertTerm] using hc
  | cons u rest ih =>
    obtain ⟨j, d⟩ := u
    unfold insertTerm
    have hr : ∀ t ∈ rest, t.2 ≠ 0 := fun t ht ↦ h t (List.mem_cons_of_mem _ ht)
    split
    · exact fun t ht ↦ (List.mem_cons.mp ht).elim (fun e ↦ e ▸ hc) (h t)
    · split
      · exact fun t ht ↦ (List.mem_cons.mp ht).elim (fun e ↦ e ▸ h _ List.mem_cons_self) (ih hr t)
      · split
        · exact hr
        · rename_i hd
          exact fun t ht ↦ (List.mem_cons.mp ht).elim (fun e ↦ e ▸ hd) (hr t)

/-- Adds `c·k`. -/
def addTerm (s : Sparse κ) (k : κ) (c : Scalar) : Sparse κ :=
  if h : c = 0 then s
  else ⟨insertTerm k c s.terms, ascending_insertTerm k c s.ascending, nonzero_insertTerm h s.nonzero⟩

/-! ## Construction -/

instance : Zero (Sparse κ) := ⟨⟨[], .nil, nofun⟩⟩

instance : Inhabited (Sparse κ) := ⟨0⟩

/-- The sum of terms in any order, with repeated keys added up. -/
def ofTerms (ts : List (κ × Scalar)) : Sparse κ :=
  ts.foldl (fun s t ↦ s.addTerm t.1 t.2) 0

/-- The sum `c·k`. -/
def single (k : κ) (c : Scalar) : Sparse κ :=
  addTerm 0 k c

/-! ## Queries -/

/-- Whether the sum has no terms. -/
def isZero (s : Sparse κ) : Bool :=
  s.terms.isEmpty

/-- The number of terms. -/
def size (s : Sparse κ) : Nat :=
  s.terms.length

/-- The stored coefficient of a key. -/
def coeff? (s : Sparse κ) (k : κ) : Option Scalar :=
  (s.terms.find? fun t ↦ Key.rank t.1 == Key.rank k).map (·.2)

/-- The coefficient of a key, zero if there is no such term. -/
def coeff (s : Sparse κ) (k : κ) : Scalar :=
  (s.coeff? k).getD 0

/-- The coefficient of the first term. -/
def leading? (s : Sparse κ) : Option Scalar :=
  s.terms.head?.map (·.2)

/-! ## Arithmetic -/

/-- Adds the terms of the second sum to the first. -/
protected def add (s t : Sparse κ) : Sparse κ :=
  t.terms.foldl (fun acc u ↦ acc.addTerm u.1 u.2) s

/-- Negates every coefficient. -/
protected def neg (s : Sparse κ) : Sparse κ where
  terms := s.terms.map fun t ↦ (t.1, -t.2)
  ascending := List.pairwise_map.mpr s.ascending
  nonzero := by
    intro t ht
    obtain ⟨u, hu, rfl⟩ := List.mem_map.mp ht
    exact Scalar.neg_ne_zero (s.nonzero u hu)

instance : Add (Sparse κ) := ⟨Sparse.add⟩

instance : Neg (Sparse κ) := ⟨Sparse.neg⟩

instance : Sub (Sparse κ) := ⟨fun s t ↦ s + -t⟩

/-- Multiplies every coefficient. No product is zero unless the factor is. -/
def scale (s : Sparse κ) (c : Scalar) : Sparse κ :=
  if h : c = 0 then 0
  else
    { terms := s.terms.map fun t ↦ (t.1, t.2 * c)
      ascending := List.pairwise_map.mpr s.ascending
      nonzero := by
        intro t ht
        obtain ⟨u, hu, rfl⟩ := List.mem_map.mp ht
        exact Scalar.mul_ne_zero (s.nonzero u hu) h }

@[simp] theorem scale_zero (s : Sparse κ) : s.scale 0 = 0 :=
  dif_pos rfl

@[simp] theorem zero_scale (c : Scalar) : (0 : Sparse κ).scale c = 0 := by
  unfold scale
  split
  · rfl
  · rfl

theorem terms_scale {c : Scalar} (hc : c ≠ 0) (s : Sparse κ) :
    (s.scale c).terms = s.terms.map fun t ↦ (t.1, t.2 * c) := by
  rw [scale, dif_neg hc]

/-- Leaves out the term of a key. -/
def erase (s : Sparse κ) (k : κ) : Sparse κ where
  terms := s.terms.filter fun t ↦ Key.rank t.1 != Key.rank k
  ascending := s.ascending.filter _
  nonzero := fun t ht ↦ s.nonzero t (List.mem_filter.mp ht).1

/-- Renames the keys, adding up the terms whose keys become equal. -/
def map (f : κ → ι) (s : Sparse κ) : Sparse ι :=
  ofTerms (s.terms.map fun t ↦ (f t.1, t.2))

/-! ## Values -/

/-- The value of the sum when each key has a value. -/
def eval (r : κ → Scalar) (s : Sparse κ) : Scalar :=
  (s.terms.map fun t ↦ t.2 * r t.1).sum

/-- The value of a list of terms, or the first failure to give a key a value. -/
def tryEvalTerms {ε : Type} (r : κ → Except ε Scalar) : List (κ × Scalar) → Except ε Scalar
  | [] => .ok 0
  | (k, c) :: rest => do
    let v ← r k
    let w ← tryEvalTerms r rest
    return c * v + w

/-- The value of the sum, or the first failure to give a key a value. -/
def tryEval {ε : Type} (r : κ → Except ε Scalar) (s : Sparse κ) : Except ε Scalar :=
  tryEvalTerms r s.terms

/-! ## Order -/

/-- Compares term lists lexicographically, keys before coefficients. -/
def compareTerms : List (κ × Scalar) → List (κ × Scalar) → Ordering
  | [], [] => .eq
  | [], _ :: _ => .lt
  | _ :: _, [] => .gt
  | (j, c) :: s, (k, d) :: t =>
    ((compare (Key.rank j) (Key.rank k)).then (compare c.val d.val)).then (compareTerms s t)

end Sparse

end Quadratize
