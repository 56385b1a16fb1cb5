import Mathlib.Data.List.Forall2

/-!
# Steps that succeed

A computation in steps succeeds exactly if each of its steps does, and it fails as the first of its
steps that does not.
-/

namespace Quadratize

variable {ε δ α β γ : Type}

theorem bind_eq_ok {x : Except ε α} {f : α → Except ε β} {b : β} :
    (x >>= f) = .ok b ↔ ∃ a, x = .ok a ∧ f a = .ok b := by
  cases x with
  | error e => exact ⟨nofun, fun ⟨_, h, _⟩ ↦ nomatch h⟩
  | ok a => exact ⟨fun h ↦ ⟨a, rfl, h⟩, fun ⟨_, h, hf⟩ ↦ Except.ok.inj h ▸ hf⟩

theorem bind_eq_error {x : Except ε α} {f : α → Except ε β} {e : ε} :
    (x >>= f) = .error e ↔ x = .error e ∨ ∃ a, x = .ok a ∧ f a = .error e := by
  cases x with
  | error e' => exact ⟨fun h ↦ .inl (congrArg _ (Except.error.inj h)),
      fun h ↦ h.elim (fun h ↦ congrArg _ (Except.error.inj h)) fun ⟨_, h, _⟩ ↦ nomatch h⟩
  | ok a => exact ⟨fun h ↦ .inr ⟨a, rfl, h⟩,
      fun h ↦ h.elim nofun fun ⟨_, h, hf⟩ ↦ Except.ok.inj h ▸ hf⟩

theorem exists_bind_ok {x : Except ε α} {f : α → Except ε β} :
    (∃ b, (x >>= f) = .ok b) ↔ ∃ a, x = .ok a ∧ ∃ b, f a = .ok b := by
  simp only [bind_eq_ok, ← exists_and_left]
  exact exists_comm

/-- A result that is computed from two succeeds if both do. -/
theorem exists_bind₂_ok {x : Except ε α} {y : Except ε β} {f : α → β → γ} :
    (∃ c, (x >>= fun a ↦ y >>= fun b ↦ pure (f a b)) = .ok c) ↔
      (∃ a, x = .ok a) ∧ ∃ b, y = .ok b := by
  simp only [exists_bind_ok, ← exists_and_right]
  refine exists_congr fun a ↦ and_congr_right fun _ ↦ exists_congr fun b ↦ ?_
  exact and_iff_left ⟨f a b, rfl⟩

/-- It fails as the first of the two that does. -/
theorem bind₂_eq_error {x : Except ε α} {y : Except ε β} {f : α → β → γ} {e : ε} :
    (x >>= fun a ↦ y >>= fun b ↦ pure (f a b)) = .error e ↔
      x = .error e ∨ (∃ a, x = .ok a) ∧ y = .error e := by
  rw [bind_eq_error, ← exists_and_right]
  refine or_congr_right (exists_congr fun a ↦ and_congr_right fun _ ↦ ?_)
  rw [bind_eq_error]
  exact or_iff_left fun ⟨_, _, h⟩ ↦ nomatch h

theorem map_eq_ok {x : Except ε α} {f : α → β} {b : β} :
    x.map f = .ok b ↔ ∃ a, x = .ok a ∧ f a = b := by
  cases x with
  | error e => exact ⟨nofun, fun ⟨_, h, _⟩ ↦ nomatch h⟩
  | ok a => exact ⟨fun h ↦ ⟨a, rfl, Except.ok.inj h⟩, fun ⟨_, h, hf⟩ ↦ by
      rw [Except.ok.inj h, Except.map, hf]⟩

theorem mapError_eq_ok {x : Except ε α} {f : ε → δ} {a : α} :
    x.mapError f = .ok a ↔ x = .ok a := by
  cases x with
  | error e => exact ⟨nofun, nofun⟩
  | ok b => exact ⟨fun h ↦ congrArg _ (Except.ok.inj h), fun h ↦ congrArg _ (Except.ok.inj h)⟩

theorem mapError_eq_error {x : Except ε α} {f : ε → δ} {d : δ} :
    x.mapError f = .error d ↔ ∃ e, x = .error e ∧ f e = d := by
  cases x with
  | error e => exact ⟨fun h ↦ ⟨e, rfl, Except.error.inj h⟩, fun ⟨_, h, hf⟩ ↦ by
      rw [Except.error.inj h, Except.mapError, hf]⟩
  | ok a => exact ⟨nofun, fun ⟨_, h, _⟩ ↦ nomatch h⟩

/-- A computation that ends well with a property can be found by running it. -/
theorem exists_ok_of_any {x : Except ε α} {P : α → Bool} (h : x.toOption.any P = true) :
    ∃ a, x = .ok a ∧ P a = true := by
  cases x with
  | error e => cases h
  | ok a => exact ⟨a, rfl, h⟩

/-- A step over a list succeeds if it succeeds on each element in turn. -/
theorem mapM_eq_ok {f : α → Except ε β} {l : List α} {l' : List β} :
    l.mapM f = .ok l' ↔ List.Forall₂ (fun a b ↦ f a = .ok b) l l' := by
  induction l generalizing l' with
  | nil =>
    rw [List.mapM_nil, List.forall₂_nil_left_iff]
    exact ⟨fun h ↦ (Except.ok.inj h).symm, fun h ↦ congrArg _ h.symm⟩
  | cons a l ih =>
    rw [List.mapM_cons, bind_eq_ok]
    constructor
    · rintro ⟨b, hb, h⟩
      obtain ⟨bs, hbs, h⟩ := bind_eq_ok.mp h
      obtain rfl := Except.ok.inj h
      exact .cons hb (ih.mp hbs)
    · rintro (_ | ⟨hb, hbs⟩)
      exact ⟨_, hb, bind_eq_ok.mpr ⟨_, ih.mpr hbs, rfl⟩⟩

theorem mapM_congr {f g : α → Except ε β} {l : List α} (h : ∀ a ∈ l, f a = g a) :
    l.mapM f = l.mapM g := by
  induction l with
  | nil => rfl
  | cons a l ih =>
    obtain ⟨ha, hl⟩ := List.forall_mem_cons.mp h
    rw [List.mapM_cons, List.mapM_cons, ha, ih hl]

theorem mapM_append_eq_ok {f : α → Except ε β} {l m : List α} {l' : List β} :
    (l ++ m).mapM f = .ok l' ↔ ∃ xs ys, l.mapM f = .ok xs ∧ m.mapM f = .ok ys ∧ xs ++ ys = l' := by
  rw [List.mapM_append, bind_eq_ok]
  constructor
  · rintro ⟨xs, hxs, h⟩
    obtain ⟨ys, hys, h⟩ := bind_eq_ok.mp h
    exact ⟨xs, ys, hxs, hys, Except.ok.inj h⟩
  · rintro ⟨xs, ys, hxs, hys, rfl⟩
    exact ⟨xs, hxs, bind_eq_ok.mpr ⟨ys, hys, rfl⟩⟩

/-- Each element of the second list has its partner in the first. -/
theorem exists_of_forall₂ {R : α → β → Prop} {l : List α} {l' : List β} (h : List.Forall₂ R l l')
    {b : β} (hb : b ∈ l') : ∃ a ∈ l, R a b := by
  induction h with
  | nil => cases hb
  | cons hab _ ih =>
    rcases List.mem_cons.mp hb with rfl | hb
    · exact ⟨_, List.mem_cons_self, hab⟩
    · obtain ⟨x, hx, hr⟩ := ih hb
      exact ⟨x, List.mem_cons_of_mem _ hx, hr⟩

/-- What a step over a list gives for an element is in its result. -/
theorem exists_mem_of_mapM_eq_ok {f : α → Except ε β} {l : List α} {l' : List β}
    (h : l.mapM f = .ok l') {a : α} (ha : a ∈ l) : ∃ b ∈ l', f a = .ok b :=
  exists_of_forall₂ (List.Forall₂.flip (R := fun b a ↦ f a = .ok b) (mapM_eq_ok.mp h)) ha

theorem exists_mapM_ok {f : α → Except ε β} {l : List α} (h : ∀ a ∈ l, ∃ b, f a = .ok b) :
    ∃ l', l.mapM f = .ok l' := by
  induction l with
  | nil => exact ⟨[], rfl⟩
  | cons a l ih =>
    obtain ⟨⟨b, hb⟩, hl⟩ := List.forall_mem_cons.mp h
    obtain ⟨bs, hbs⟩ := ih hl
    exact ⟨b :: bs, mapM_eq_ok.mpr (.cons hb (mapM_eq_ok.mp hbs))⟩

/-- A step over a list fails as it does on the first element on which it fails. -/
theorem mapM_eq_error {f : α → Except ε β} {l : List α} {e : ε} :
    l.mapM f = .error e ↔ ∃ before a after, l = before ++ a :: after ∧
      (∀ b ∈ before, ∃ c, f b = .ok c) ∧ f a = .error e := by
  constructor
  · intro h
    induction l with
    | nil => cases h
    | cons a l ih =>
      rw [List.mapM_cons] at h
      rcases bind_eq_error.mp h with h | ⟨b, hb, h⟩
      · exact ⟨[], a, l, rfl, nofun, h⟩
      · rcases bind_eq_error.mp h with h | ⟨bs, -, h⟩
        · obtain ⟨before, x, after, rfl, hbefore, he⟩ := ih h
          exact ⟨a :: before, x, after, rfl, List.forall_mem_cons.mpr ⟨⟨b, hb⟩, hbefore⟩, he⟩
        · cases h
  · rintro ⟨before, a, after, rfl, hbefore, he⟩
    obtain ⟨bs, hbs⟩ := exists_mapM_ok hbefore
    rw [List.mapM_append, List.mapM_cons, hbs, he]
    rfl

/-- A fold fails at some element, after it has gone through those before. -/
theorem foldlM_eq_error {f : β → α → Except ε β} {l : List α} {b : β} {e : ε}
    (h : l.foldlM f b = .error e) :
    ∃ n, ∃ a ∈ l, ∃ b', (l.take n).foldlM f b = .ok b' ∧ f b' a = .error e := by
  induction l generalizing b with
  | nil => cases h
  | cons a l ih =>
    rw [List.foldlM_cons] at h
    rcases bind_eq_error.mp h with h | ⟨b₁, hb₁, h⟩
    · exact ⟨0, a, List.mem_cons_self, b, rfl, h⟩
    · obtain ⟨n, x, hx, b', hb', he⟩ := ih h
      refine ⟨n + 1, x, List.mem_cons_of_mem a hx, b', ?_, he⟩
      rw [List.take_succ_cons, List.foldlM_cons]
      exact bind_eq_ok.mpr ⟨b₁, hb₁, hb'⟩

/-- What every step of a fold preserves holds at its end. -/
theorem foldlM_induction {f : β → α → Except ε β} {P : β → Prop}
    (hstep : ∀ b a b', P b → f b a = .ok b' → P b') {l : List α} {b b' : β} (hb : P b)
    (h : l.foldlM f b = .ok b') : P b' := by
  induction l generalizing b with
  | nil => exact Except.ok.inj h ▸ hb
  | cons a l ih =>
    rw [List.foldlM_cons] at h
    obtain ⟨b₁, hb₁, h⟩ := bind_eq_ok.mp h
    exact ih (hstep b a b₁ hb hb₁) h

/-- What step `k` of a fold over the first numbers takes from `k` to `k + 1` holds at its end. -/
theorem foldlM_range_induction {f : β → Nat → Except ε β} {P : Nat → β → Prop} {n : Nat}
    (hstep : ∀ k b b', P k b → f b k = .ok b' → P (k + 1) b') {b b' : β} (hb : P 0 b)
    (h : (List.range n).foldlM f b = .ok b') : P n b' := by
  induction n generalizing b' with
  | zero => exact Except.ok.inj h ▸ hb
  | succ n ih =>
    rw [List.range_succ, List.foldlM_append] at h
    obtain ⟨b₁, hb₁, h⟩ := bind_eq_ok.mp h
    obtain ⟨b₂, hb₂, h⟩ := bind_eq_ok.mp h
    obtain rfl := Except.ok.inj h
    exact hstep n b₁ b₂ (ih hb₁) hb₂

/-! ## Steps on a state -/

/-- Steps that begin with a look at the state go on with what they saw. -/
theorem run_get_bind {σ : Type} (f : σ → ExceptT ε (StateM σ) α) (s : σ) :
    (get >>= f).run.run s = (f s).run.run s := rfl

end Quadratize
