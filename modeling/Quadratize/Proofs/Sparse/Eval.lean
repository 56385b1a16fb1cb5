import Mathlib.Tactic.Ring
import Quadratize.Affine
import Quadratize.Proofs.Scalar.Field

/-!
# Values and keys of sparse sums

Every operation on sparse sums has its meaning on values, whatever terms it merges or drops, and
brings in no key that its operands or arguments do not have.  Sums with the same values are equal.
-/

namespace Quadratize

namespace Sparse

variable {κ ι : Type} [Key κ] [Key ι]

/-- The keys of the terms. -/
def keys (s : Sparse κ) : List κ :=
  s.terms.map (·.1)

theorem mem_keys {s : Sparse κ} {k : κ} : k ∈ s.keys ↔ ∃ t ∈ s.terms, t.1 = k :=
  List.mem_map

/-! ## Values -/

theorem sum_insertTerm (r : κ → Scalar) (k : κ) (c : Scalar) (l : List (κ × Scalar)) :
    ((insertTerm k c l).map fun t ↦ t.2 * r t.1).sum =
      (l.map fun t ↦ t.2 * r t.1).sum + c * r k := by
  induction l with
  | nil => simp [insertTerm]
  | cons u rest ih =>
    obtain ⟨j, d⟩ := u
    unfold insertTerm
    split_ifs with hlt hgt hzero
    · simp only [List.map_cons, List.sum_cons]
      ring
    · simp only [List.map_cons, List.sum_cons, ih]
      ring
    · have hj : j = k := Key.rank_inj (by omega)
      have hd : d = -c := eq_neg_of_add_eq_zero_left hzero
      simp only [List.map_cons, List.sum_cons, hj, hd]
      ring
    · have hj : j = k := Key.rank_inj (by omega)
      simp only [List.map_cons, List.sum_cons, hj]
      ring

@[simp] theorem eval_zero (r : κ → Scalar) : (0 : Sparse κ).eval r = 0 := rfl

@[simp] theorem eval_addTerm (r : κ → Scalar) (s : Sparse κ) (k : κ) (c : Scalar) :
    (s.addTerm k c).eval r = s.eval r + c * r k := by
  unfold addTerm
  split_ifs with hc
  · simp [hc]
  · exact sum_insertTerm r k c s.terms

@[simp] theorem eval_single (r : κ → Scalar) (k : κ) (c : Scalar) :
    (single k c).eval r = c * r k := by
  simp [single]

/-- Adding terms one after the other adds their values. -/
theorem eval_foldl_addTerm (r : κ → Scalar) (ts : List (κ × Scalar)) (s : Sparse κ) :
    (ts.foldl (fun acc t ↦ acc.addTerm t.1 t.2) s).eval r =
      s.eval r + (ts.map fun t ↦ t.2 * r t.1).sum := by
  induction ts generalizing s with
  | nil => simp
  | cons t ts ih =>
    rw [List.foldl_cons, ih, eval_addTerm, List.map_cons, List.sum_cons]
    ring

@[simp] theorem eval_ofTerms (r : κ → Scalar) (ts : List (κ × Scalar)) :
    (ofTerms ts).eval r = (ts.map fun t ↦ t.2 * r t.1).sum := by
  rw [ofTerms, eval_foldl_addTerm, eval_zero, zero_add]

@[simp] theorem eval_add (r : κ → Scalar) (s t : Sparse κ) :
    (s + t).eval r = s.eval r + t.eval r :=
  eval_foldl_addTerm r t.terms s

@[simp] theorem eval_neg (r : κ → Scalar) (s : Sparse κ) : (-s).eval r = -s.eval r := by
  change ((s.terms.map fun t ↦ (t.1, -t.2)).map fun t ↦ t.2 * r t.1).sum = _
  rw [List.map_map, eval]
  induction s.terms with
  | nil => simp
  | cons t rest ih =>
    simp only [List.map_cons, List.sum_cons, ih, Function.comp_apply]
    ring

@[simp] theorem eval_sub (r : κ → Scalar) (s t : Sparse κ) :
    (s - t).eval r = s.eval r - t.eval r := by
  change (s + -t).eval r = _
  rw [eval_add, eval_neg, sub_eq_add_neg]

omit [Key κ] in
/-- Dropping terms without value keeps the value. -/
theorem sum_filter (r : κ → Scalar) (p : κ × Scalar → Bool) (l : List (κ × Scalar))
    (h : ∀ t ∈ l, p t = false → t.2 * r t.1 = 0) :
    ((l.filter p).map fun t ↦ t.2 * r t.1).sum = (l.map fun t ↦ t.2 * r t.1).sum := by
  induction l with
  | nil => rfl
  | cons t l ih =>
    have hl := ih fun u hu ↦ h u (List.mem_cons_of_mem _ hu)
    cases hp : p t with
    | false =>
      rw [List.filter_cons_of_neg (by simp [hp]), hl, List.map_cons, List.sum_cons,
        h t List.mem_cons_self hp, zero_add]
    | true => rw [List.filter_cons_of_pos hp, List.map_cons, List.map_cons, List.sum_cons, hl,
        List.sum_cons]

@[simp] theorem eval_scale (r : κ → Scalar) (s : Sparse κ) (c : Scalar) :
    (s.scale c).eval r = s.eval r * c := by
  by_cases hc : c = 0
  · rw [hc, scale_zero, eval_zero, mul_zero]
  · rw [eval, eval, terms_scale hc, ← List.sum_map_mul_right, List.map_map]
    congr 2
    funext t
    exact mul_right_comm _ _ _

/-- Leaving out a key with the value zero keeps the value. -/
theorem eval_erase {r : κ → Scalar} {k : κ} (hk : r k = 0) (s : Sparse κ) :
    (s.erase k).eval r = s.eval r := by
  refine sum_filter r _ s.terms fun t _ ht ↦ ?_
  have hrank : Key.rank t.1 = Key.rank k := by simpa using ht
  rw [Key.rank_inj hrank, hk, mul_zero]

@[simp] theorem eval_map (r : ι → Scalar) (f : κ → ι) (s : Sparse κ) :
    (s.map f).eval r = s.eval (r ∘ f) := by
  rw [map, eval_ofTerms, List.map_map]
  rfl

/-- The value depends only on the values of the keys. -/
theorem eval_congr {r q : κ → Scalar} {s : Sparse κ} (h : ∀ k ∈ s.keys, r k = q k) :
    s.eval r = s.eval q := by
  unfold eval
  congr 1
  refine List.map_congr_left fun t ht ↦ ?_
  rw [h t.1 (mem_keys.mpr ⟨t, ht, rfl⟩)]

omit [Key κ] in
theorem tryEvalTerms_eq_ok {ε : Type} {r : κ → Except ε Scalar} {q : κ → Scalar}
    {l : List (κ × Scalar)} (h : ∀ t ∈ l, r t.1 = .ok (q t.1)) :
    tryEvalTerms r l = .ok (l.map fun t ↦ t.2 * q t.1).sum := by
  induction l with
  | nil => rfl
  | cons t rest ih =>
    obtain ⟨k, c⟩ := t
    have hrest := ih fun u hu ↦ h u (List.mem_cons_of_mem _ hu)
    rw [tryEvalTerms, h (k, c) List.mem_cons_self, hrest]
    rfl

/-- A partial evaluation that finds every key gives the value. -/
theorem tryEval_eq_ok {ε : Type} {r : κ → Except ε Scalar} {q : κ → Scalar} {s : Sparse κ}
    (h : ∀ k ∈ s.keys, r k = .ok (q k)) : s.tryEval r = .ok (s.eval q) :=
  tryEvalTerms_eq_ok fun t ht ↦ h t.1 (mem_keys.mpr ⟨t, ht, rfl⟩)

/-! ## Keys -/

@[simp] theorem keys_zero : (0 : Sparse κ).keys = [] := rfl

theorem mem_keys_addTerm {s : Sparse κ} {k j : κ} {c : Scalar} (h : j ∈ (s.addTerm k c).keys) :
    j = k ∨ j ∈ s.keys := by
  unfold addTerm at h
  split_ifs at h with hc
  · exact .inr h
  · obtain ⟨t, ht, rfl⟩ := mem_keys.mp h
    rcases fst_of_mem_insertTerm ht with he | ⟨u, hu, he⟩
    · exact .inl he
    · exact .inr (mem_keys.mpr ⟨u, hu, he⟩)

theorem mem_keys_foldl_addTerm {ts : List (κ × Scalar)} {s : Sparse κ} {k : κ}
    (h : k ∈ (ts.foldl (fun acc t ↦ acc.addTerm t.1 t.2) s).keys) :
    k ∈ s.keys ∨ ∃ t ∈ ts, t.1 = k := by
  induction ts generalizing s with
  | nil => exact .inl h
  | cons t ts ih =>
    rcases ih h with h | ⟨u, hu, he⟩
    · rcases mem_keys_addTerm h with rfl | h
      · exact .inr ⟨t, List.mem_cons_self, rfl⟩
      · exact .inl h
    · exact .inr ⟨u, List.mem_cons_of_mem _ hu, he⟩

theorem mem_keys_single {k j : κ} {c : Scalar} (h : j ∈ (single k c).keys) : j = k :=
  (mem_keys_addTerm h).resolve_right (by simp)

theorem mem_keys_add {s t : Sparse κ} {k : κ} (h : k ∈ (s + t).keys) : k ∈ s.keys ∨ k ∈ t.keys :=
  (mem_keys_foldl_addTerm h).imp_right mem_keys.mpr

@[simp] theorem keys_neg (s : Sparse κ) : (-s).keys = s.keys := by
  change (s.terms.map fun t ↦ (t.1, -t.2)).map (·.1) = _
  rw [List.map_map]
  rfl

theorem mem_keys_sub {s t : Sparse κ} {k : κ} (h : k ∈ (s - t).keys) : k ∈ s.keys ∨ k ∈ t.keys := by
  rw [← keys_neg t]
  exact mem_keys_add h

theorem mem_keys_scale {s : Sparse κ} {c : Scalar} {k : κ} (h : k ∈ (s.scale c).keys) :
    k ∈ s.keys := by
  by_cases hc : c = 0
  · rw [hc, scale_zero] at h
    cases h
  · obtain ⟨t, ht, rfl⟩ := mem_keys.mp h
    rw [terms_scale hc] at ht
    obtain ⟨u, hu, rfl⟩ := List.mem_map.mp ht
    exact mem_keys.mpr ⟨u, hu, rfl⟩

theorem mem_keys_erase {s : Sparse κ} {k j : κ} : j ∈ (s.erase k).keys ↔ j ∈ s.keys ∧ j ≠ k := by
  constructor
  · intro h
    obtain ⟨t, ht, rfl⟩ := mem_keys.mp h
    obtain ⟨hmem, hne⟩ := List.mem_filter.mp ht
    exact ⟨mem_keys.mpr ⟨t, hmem, rfl⟩, fun he ↦ by simp [he] at hne⟩
  · rintro ⟨h, hne⟩
    obtain ⟨t, ht, rfl⟩ := mem_keys.mp h
    have hrank : Key.rank t.1 ≠ Key.rank k := fun he ↦ hne (Key.rank_inj he)
    exact mem_keys.mpr ⟨t, List.mem_filter.mpr ⟨ht, by simpa using hrank⟩, rfl⟩

theorem mem_keys_map {f : κ → ι} {s : Sparse κ} {j : ι} (h : j ∈ (s.map f).keys) :
    ∃ k ∈ s.keys, f k = j := by
  rcases mem_keys_foldl_addTerm h with h | ⟨t, ht, rfl⟩
  · simp at h
  · obtain ⟨u, hu, rfl⟩ := List.mem_map.mp ht
    exact ⟨u.1, mem_keys.mpr ⟨u, hu, rfl⟩, rfl⟩

/-- A sum without terms has the value zero. -/
theorem eval_of_isZero {s : Sparse κ} (h : s.isZero = true) (r : κ → Scalar) : s.eval r = 0 := by
  have hs : s.terms = [] := by simpa [isZero] using h
  simp [eval, hs]

/-! ## Sums with the same values -/

/-- One at a key and zero elsewhere. -/
def indicator (k j : κ) : Scalar :=
  if Key.rank j = Key.rank k then 1 else 0

/-- A list of terms with larger keys has the value zero at the indicator of a key. -/
theorem sum_indicator {k : κ} {l : List (κ × Scalar)}
    (h : ∀ t ∈ l, Key.rank k < Key.rank t.1) :
    (l.map fun t ↦ t.2 * indicator k t.1).sum = 0 := by
  refine List.sum_eq_zero fun a ha ↦ ?_
  obtain ⟨t, ht, rfl⟩ := List.mem_map.mp ha
  have hne := h t ht
  rw [indicator, if_neg (by omega), mul_zero]

theorem sum_cons_indicator (k : κ) (c : Scalar) {l : List (κ × Scalar)}
    (h : ∀ t ∈ l, Key.rank k < Key.rank t.1) :
    (((k, c) :: l).map fun t ↦ t.2 * indicator k t.1).sum = c := by
  rw [List.map_cons, List.sum_cons, sum_indicator h, add_zero, indicator, if_pos rfl, mul_one]

theorem terms_eq_of_sum {l m : List (κ × Scalar)}
    (hl : l.Pairwise fun s t ↦ Key.rank s.1 < Key.rank t.1)
    (hm : m.Pairwise fun s t ↦ Key.rank s.1 < Key.rank t.1)
    (hl' : ∀ t ∈ l, t.2 ≠ 0) (hm' : ∀ t ∈ m, t.2 ≠ 0)
    (h : ∀ r : κ → Scalar, (l.map fun t ↦ t.2 * r t.1).sum = (m.map fun t ↦ t.2 * r t.1).sum) :
    l = m := by
  -- A key that comes before all keys of the other list would have the coefficient zero.
  have hfirst {k : κ} {c : Scalar} {l m : List (κ × Scalar)}
      (hl : ∀ t ∈ l, Key.rank k < Key.rank t.1) (hm : ∀ t ∈ m, Key.rank k < Key.rank t.1)
      (h : ∀ r : κ → Scalar,
        (((k, c) :: l).map fun t ↦ t.2 * r t.1).sum = (m.map fun t ↦ t.2 * r t.1).sum) : c = 0 := by
    rw [← sum_cons_indicator k c hl, h, sum_indicator hm]
  induction l generalizing m with
  | nil =>
    cases m with
    | nil => rfl
    | cons u m =>
      obtain ⟨hu, -⟩ := List.pairwise_cons.mp hm
      exact absurd (hfirst (m := []) hu (by simp) fun r ↦ (h r).symm) (hm' u List.mem_cons_self)
  | cons t l ih =>
    obtain ⟨ht, hrest⟩ := List.pairwise_cons.mp hl
    obtain ⟨hne, hne_l⟩ := List.forall_mem_cons.mp hl'
    cases m with
    | nil => exact absurd (hfirst (m := []) ht (by simp) h) hne
    | cons u m =>
      obtain ⟨hu, hrest'⟩ := List.pairwise_cons.mp hm
      obtain ⟨hne', hne_m⟩ := List.forall_mem_cons.mp hm'
      rcases Nat.lt_trichotomy (Key.rank t.1) (Key.rank u.1) with hlt | heq | hgt
      · refine absurd (hfirst ht (List.forall_mem_cons.mpr ⟨hlt, fun v hv ↦ ?_⟩) h) hne
        exact hlt.trans (hu v hv)
      · obtain ⟨k, c⟩ := t
        obtain ⟨j, d⟩ := u
        obtain rfl : k = j := Key.rank_inj heq
        obtain rfl : c = d := by
          rw [← sum_cons_indicator k c ht, h, sum_cons_indicator k d hu]
        rw [ih hrest hrest' hne_l hne_m fun r ↦ ?_]
        have hr := h r
        rw [List.map_cons, List.map_cons, List.sum_cons, List.sum_cons] at hr
        exact add_left_cancel hr
      · refine absurd (hfirst hu (List.forall_mem_cons.mpr ⟨hgt, fun v hv ↦ ?_⟩)
          fun r ↦ (h r).symm) hne'
        exact hgt.trans (ht v hv)

/-- A sum is determined by its values. -/
theorem ext_of_eval {s t : Sparse κ} (h : ∀ r, s.eval r = t.eval r) : s = t :=
  ext (terms_eq_of_sum s.ascending t.ascending s.nonzero t.nonzero h)

theorem map_map {ν : Type} [Key ν] (f : κ → ι) (g : ι → ν) (s : Sparse κ) :
    (s.map f).map g = s.map (g ∘ f) := by
  refine ext_of_eval fun r ↦ ?_
  rw [eval_map, eval_map, eval_map, Function.comp_assoc]

theorem map_congr {f g : κ → ι} {s : Sparse κ} (h : ∀ k ∈ s.keys, f k = g k) :
    s.map f = s.map g := by
  refine ext_of_eval fun r ↦ ?_
  rw [eval_map, eval_map]
  exact eval_congr fun k hk ↦ congrArg r (h k hk)

theorem isZero_map {f : κ → ι} {s : Sparse κ} (h : s.isZero = true) : (s.map f).isZero = true := by
  have hs : s.terms = [] := by simpa [isZero] using h
  rw [map, hs]
  rfl

/-- Keys that are told apart are renamed term by term, and then only the order of the terms
changes. -/
theorem terms_map_perm {f : κ → ι} {s : Sparse κ} (hf : Set.InjOn f {k | k ∈ s.keys}) :
    (s.map f).terms.Perm (s.terms.map fun t ↦ (f t.1, t.2)) := by
  let le (t u : ι × Scalar) : Bool := Key.rank t.1 ≤ Key.rank u.1
  let sorted := (s.terms.map fun t ↦ (f t.1, t.2)).mergeSort le
  have hperm : sorted.Perm (s.terms.map fun t ↦ (f t.1, t.2)) := List.mergeSort_perm _ _
  have hmerge : sorted.Pairwise fun t u ↦ le t u = true :=
    List.pairwise_mergeSort (fun _ _ _ ↦ by simpa [le] using Nat.le_trans)
      (fun _ _ ↦ by simpa [le] using Nat.le_total _ _) _
  have hle : sorted.Pairwise fun t u ↦ Key.rank t.1 ≤ Key.rank u.1 :=
    hmerge.imp fun h ↦ of_decide_eq_true h
  have hne : sorted.Pairwise fun t u ↦ Key.rank t.1 ≠ Key.rank u.1 := by
    refine (hperm.pairwise_iff fun h ↦ h.symm).mpr (List.pairwise_map.mpr ?_)
    refine s.ascending.imp_of_mem fun {t u} ht hu hlt he ↦ ?_
    have hkeys := hf (mem_keys.mpr ⟨t, ht, rfl⟩) (mem_keys.mpr ⟨u, hu, rfl⟩) (Key.rank_inj he)
    exact hlt.ne (congrArg Key.rank hkeys)
  have hnonzero : ∀ t ∈ sorted, t.2 ≠ 0 := by
    intro t ht
    obtain ⟨u, hu, rfl⟩ := List.mem_map.mp (hperm.mem_iff.mp ht)
    exact s.nonzero u hu
  have hsorted : (s.map f).terms = sorted := by
    refine terms_eq_of_sum (s.map f).ascending ?_ (s.map f).nonzero hnonzero fun r ↦ ?_
    · exact (hle.and hne).imp fun ⟨hle, hne⟩ ↦ lt_of_le_of_ne hle hne
    · have hsum := eval_map r f s
      rw [eval, eval] at hsum
      rw [hsum, (hperm.map _).sum_eq, List.map_map]
      rfl
  rwa [hsorted]

end Sparse

namespace Affine

variable {κ ι : Type} [Key κ] [Key ι]

/-! ## Affine sums -/

theorem mem_vars {a : Affine κ} {k : κ} : k ∈ vars a ↔ some k ∈ a.keys := by
  rw [vars, List.mem_filterMap, Sparse.mem_keys]

@[simp] theorem eval_constant (r : κ → Scalar) (c : Scalar) : eval r (constant c) = c := by
  simp [eval, constant, atKey]

@[simp] theorem eval_monomial (r : κ → Scalar) (k : κ) (c : Scalar) :
    eval r (monomial k c) = c * r k := by
  simp [eval, monomial, atKey]

@[simp] theorem eval_var (r : κ → Scalar) (k : κ) : eval r (var k) = r k := by
  simp [var]

@[simp] theorem eval_addTerm_none (r : κ → Scalar) (a : Affine κ) (c : Scalar) :
    eval r (a.addTerm none c) = eval r a + c := by
  simp [eval, atKey]

@[simp] theorem eval_addTerm_some (r : κ → Scalar) (a : Affine κ) (k : κ) (c : Scalar) :
    eval r (a.addTerm (some k) c) = eval r a + c * r k := by
  simp [eval, atKey]

@[simp] theorem eval_add (r : κ → Scalar) (a b : Affine κ) :
    eval r (a + b) = eval r a + eval r b :=
  Sparse.eval_add _ a b

@[simp] theorem eval_sub (r : κ → Scalar) (a b : Affine κ) :
    eval r (a - b) = eval r a - eval r b :=
  Sparse.eval_sub _ a b

@[simp] theorem eval_scale (r : κ → Scalar) (a : Affine κ) (c : Scalar) :
    eval r (a.scale c) = eval r a * c :=
  Sparse.eval_scale _ a c

/-- Leaving out a variable with the value zero keeps the value. -/
theorem eval_erase {r : κ → Scalar} {k : κ} (hk : r k = 0) (a : Affine κ) :
    eval r (a.erase (some k)) = eval r a :=
  Sparse.eval_erase (r := atKey r) (k := some k) hk a

theorem eval_rename (r : ι → Scalar) (f : κ → ι) (a : Affine κ) :
    eval r (rename f a) = eval (r ∘ f) a := by
  rw [eval, rename, Sparse.eval_map, eval]
  congr 1
  funext k
  cases k <;> rfl

/-- The value depends only on the values of the variables. -/
theorem eval_congr {r q : κ → Scalar} {a : Affine κ} (h : ∀ k ∈ vars a, r k = q k) :
    eval r a = eval q a := by
  refine Sparse.eval_congr fun k hk ↦ ?_
  cases k with
  | none => rfl
  | some k => exact h k (mem_vars.mpr hk)

/-- A partial evaluation that finds every variable gives the value. -/
theorem tryEval_eq_ok {ε : Type} {r : κ → Except ε Scalar} {q : κ → Scalar} {a : Affine κ}
    (h : ∀ k ∈ vars a, r k = .ok (q k)) : tryEval r a = .ok (eval q a) := by
  refine Sparse.tryEval_eq_ok fun k hk ↦ ?_
  cases k with
  | none => rfl
  | some k => exact h k (mem_vars.mpr hk)

@[simp] theorem vars_constant (c : Scalar) : vars (constant c : Affine κ) = [] := by
  refine List.eq_nil_iff_forall_not_mem.mpr fun k hk ↦ ?_
  have := Sparse.mem_keys_single (mem_vars.mp hk)
  simp at this

theorem mem_vars_monomial {k j : κ} {c : Scalar} (h : j ∈ vars (monomial k c)) : j = k :=
  Option.some.inj (Sparse.mem_keys_single (mem_vars.mp h))

theorem mem_vars_add {a b : Affine κ} {k : κ} (h : k ∈ vars (a + b)) : k ∈ vars a ∨ k ∈ vars b :=
  (Sparse.mem_keys_add (mem_vars.mp h)).imp mem_vars.mpr mem_vars.mpr

theorem mem_vars_sub {a b : Affine κ} {k : κ} (h : k ∈ vars (a - b)) : k ∈ vars a ∨ k ∈ vars b :=
  (Sparse.mem_keys_sub (mem_vars.mp h)).imp mem_vars.mpr mem_vars.mpr

theorem mem_vars_scale {a : Affine κ} {c : Scalar} {k : κ} (h : k ∈ vars (a.scale c)) :
    k ∈ vars a :=
  mem_vars.mpr (Sparse.mem_keys_scale (mem_vars.mp h))

theorem mem_vars_erase {a : Affine κ} {k j : κ} :
    j ∈ vars (a.erase (some k)) ↔ j ∈ vars a ∧ j ≠ k := by
  rw [mem_vars, Sparse.mem_keys_erase, mem_vars, ne_eq, ne_eq, Option.some_inj]

theorem mem_vars_rename {f : κ → ι} {a : Affine κ} {j : ι} (h : j ∈ vars (rename f a)) :
    ∃ k ∈ vars a, f k = j := by
  obtain ⟨k, hk, he⟩ := Sparse.mem_keys_map (mem_vars.mp h)
  obtain ⟨i, rfl, rfl⟩ := Option.map_eq_some_iff.mp he
  exact ⟨i, mem_vars.mpr hk, rfl⟩

theorem rename_rename {ν : Type} [Key ν] (f : κ → ι) (g : ι → ν) (a : Affine κ) :
    rename g (rename f a) = rename (g ∘ f) a := by
  rw [rename, rename, rename, Sparse.map_map, Option.map_comp_map]

theorem rename_congr {f g : κ → ι} {a : Affine κ} (h : ∀ k ∈ vars a, f k = g k) :
    rename f a = rename g a := by
  refine Sparse.map_congr fun k hk ↦ ?_
  cases k with
  | none => rfl
  | some k => exact congrArg some (h k (mem_vars.mpr hk))

/-- A sum without variables has at most the constant term, since its keys are distinct. -/
theorem terms_of_vars_eq_nil {a : Affine κ} (h : vars a = []) :
    a.terms = [] ∨ ∃ c, a.terms = [(none, c)] := by
  have hnone : ∀ t ∈ a.terms, t.1 = none := by
    intro t ht
    cases hk : t.1 with
    | none => rfl
    | some k =>
      have hmem : k ∈ vars a := mem_vars.mpr (Sparse.mem_keys.mpr ⟨t, ht, hk⟩)
      simp [h] at hmem
  have hasc := a.ascending
  match hterms : a.terms with
  | [] => exact .inl rfl
  | [(j, c)] =>
    have hj : j = none := hnone (j, c) (by simp [hterms])
    exact .inr ⟨c, by rw [hj]⟩
  | t :: u :: rest =>
    rw [hterms] at hasc
    have hlt := (List.pairwise_cons.mp hasc).1 u List.mem_cons_self
    rw [hnone t (by simp [hterms]), hnone u (by simp [hterms])] at hlt
    exact absurd hlt (Nat.lt_irrefl _)

/-- A sum without variables has its constant term as its value. -/
theorem eval_of_asConstant? {a : Affine κ} {c : Scalar} (h : asConstant? a = some c)
    (r : κ → Scalar) : eval r a = c := by
  unfold asConstant? at h
  split_ifs at h with hvars
  obtain rfl := Option.some.inj h
  have hcases := terms_of_vars_eq_nil (List.isEmpty_iff.mp hvars)
  unfold eval Sparse.eval constantTerm Sparse.coeff Sparse.coeff?
  rcases hcases with hterms | ⟨c, hterms⟩
  · simp [hterms]
  · simp [hterms, atKey]

end Affine

end Quadratize
