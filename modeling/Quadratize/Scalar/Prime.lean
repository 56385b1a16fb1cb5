import Quadratize.Scalar.Basic

/-!
# The order is prime

If the powers of some number go through `n` residues before they come back to one, whatever divisor
of `p` they are taken modulo, then no divisor of `p` but one is less than `n`, and `p` is prime if
`n * n` exceeds it. That scaled sums hold no zero coefficients rests on the order being prime, so
this is part of the running program and uses the core library alone.
-/

namespace Quadratize

variable {p q m n d : Nat}

/-! ## Numbers without divisors -/

/-- A number above one that only one and the number itself divide. -/
def Indivisible (p : Nat) : Prop :=
  1 < p ∧ ∀ d, d ∣ p → d = 1 ∨ d = p

theorem Indivisible.coprime (hp : Indivisible p) (h : ¬p ∣ n) : p.Coprime n := by
  rcases hp.2 _ (Nat.gcd_dvd_left p n) with hone | hself
  · exact hone
  · exact absurd (hself ▸ Nat.gcd_dvd_right p n) h

theorem Indivisible.dvd_or_dvd (hp : Indivisible p) (h : p ∣ m * n) : p ∣ m ∨ p ∣ n := by
  by_cases hm : p ∣ m
  · exact .inl hm
  · exact .inr ((hp.coprime hm).dvd_of_dvd_mul_left h)

/-- Of two factors one is at most the square root. -/
theorem indivisible_of_le (hp : 1 < p) (hlarge : p < n * n) (h : ∀ d, d ∣ p → d ≠ 1 → n ≤ d) :
    Indivisible p := by
  refine ⟨hp, fun d hd ↦ ?_⟩
  by_cases hone : d = 1
  · exact .inl hone
  · obtain ⟨e, rfl⟩ := hd
    have he : e = 1 := Decidable.not_not.mp fun hne ↦ Nat.not_lt.mpr
      (Nat.mul_le_mul (h d (Nat.dvd_mul_right d e) hone) (h e (Nat.dvd_mul_left e d) hne)) hlarge
    rw [he, Nat.mul_one]
    exact .inr rfl

theorem indivisible_of_trial (n : Nat) (hp : 1 < p ∧ p < n * n)
    (h : ∀ d, d < n → 1 < d → p % d ≠ 0) : Indivisible p := by
  refine indivisible_of_le hp.1 hp.2 fun d hd hone ↦ Nat.not_lt.mp fun hlt ↦ ?_
  have hpos : 0 < d := Nat.pos_of_dvd_of_pos hd (Nat.lt_trans Nat.one_pos hp.1)
  exact h d hlt (by omega) (Nat.mod_eq_zero_of_dvd hd)

/-! ## Products -/

/-- The product of numbers. -/
def productOf (l : List Nat) : Nat :=
  l.foldr (· * ·) 1

theorem dvd_productOf {l : List Nat} (h : q ∈ l) : q ∣ productOf l := by
  induction l with
  | nil => cases h
  | cons r l ih =>
    rcases List.mem_cons.mp h with rfl | h
    · exact Nat.dvd_mul_right q _
    · exact Nat.dvd_mul_left_of_dvd (ih h) r

/-- A proper divisor of a product lacks one of the factors. -/
theorem exists_dvd_div {l : List Nat} (hl : ∀ q ∈ l, Indivisible q) (h : d ∣ productOf l)
    (hne : d ≠ productOf l) : ∃ q ∈ l, d ∣ productOf l / q := by
  induction l generalizing d with
  | nil => exact absurd (Nat.eq_one_of_dvd_one h) hne
  | cons r l ih =>
    have hr : Indivisible r := hl r List.mem_cons_self
    have hpos : 0 < r := Nat.lt_trans Nat.one_pos hr.1
    by_cases hrd : r ∣ d
    · obtain ⟨e, rfl⟩ := hrd
      obtain ⟨q, hq, he⟩ := ih (fun q hq ↦ hl q (List.mem_cons_of_mem r hq))
        (Nat.dvd_of_mul_dvd_mul_left hpos h) (fun he ↦ hne (congrArg (r * ·) he))
      refine ⟨q, List.mem_cons_of_mem r hq, ?_⟩
      change _ ∣ r * productOf l / q
      rw [Nat.mul_div_assoc r (dvd_productOf hq)]
      exact Nat.mul_dvd_mul_left r he
    · refine ⟨r, List.mem_cons_self, ?_⟩
      change _ ∣ r * productOf l / r
      rw [Nat.mul_div_cancel_left _ hpos]
      exact (hr.coprime hrd).symm.dvd_of_dvd_mul_left h

/-! ## Powers that are one -/

section

variable {b : Nat}

theorem pow_mul_mod (h : b.pow m % d = 1 % d) (n : Nat) : b.pow (m * n) % d = 1 % d := by
  simp only [Nat.pow_eq] at h ⊢
  rw [Nat.pow_mul, Nat.pow_mod, h, ← Nat.pow_mod, Nat.one_pow]

theorem pow_gcd_mod (hm : b.pow m % d = 1 % d) (hn : b.pow n % d = 1 % d) :
    b.pow (m.gcd n) % d = 1 % d := by
  induction m, n using Nat.gcd.induction with
  | H0 n => rwa [Nat.gcd_zero_left]
  | H1 m n hpos ih =>
    rw [Nat.gcd_rec]
    refine ih ?_ hm
    have hmul := pow_mul_mod hm (n / m)
    simp only [Nat.pow_eq] at hmul hn ⊢
    calc b ^ (n % m) % d
      _ = b ^ (m * (n / m)) * b ^ (n % m) % d := by
        rw [← Nat.mod_mul_mod, hmul, Nat.mod_mul_mod, Nat.one_mul]
      _ = 1 % d := by rw [← Nat.pow_add, Nat.div_add_mod, hn]

/-- Powers that do not come back to one before the exponent `n` are different residues. -/
theorem le_of_pow (hd : 0 < d) (hn : b.pow n % d = 1 % d)
    (h : ∀ m, 0 < m → m < n → b.pow m % d ≠ 1 % d) : n ≤ d := by
  have hnodup : ((List.range n).map fun i ↦ b.pow i % d).Nodup := by
    refine List.pairwise_map.mpr (List.Pairwise.imp_of_mem ?_ List.pairwise_lt_range)
    intro i j hi hj hlt heq
    have hin : i < n := List.mem_range.mp hi
    have hjn : j < n := List.mem_range.mp hj
    refine h (j - i) (Nat.sub_pos_of_lt hlt) (by omega) ?_
    simp only [Nat.pow_eq] at hn heq ⊢
    calc b ^ (j - i) % d
      _ = b ^ (j - i) * b ^ n % d := by rw [Nat.mul_mod, hn, ← Nat.mul_mod, Nat.mul_one]
      _ = b ^ j % d * b ^ (n - i) % d := by
        rw [Nat.mod_mul_mod, ← Nat.pow_add, ← Nat.pow_add]
        exact congrArg (b ^ · % d) (by omega)
      _ = b ^ n % d := by
        rw [← heq, Nat.mod_mul_mod, ← Nat.pow_add, Nat.add_sub_cancel' (Nat.le_of_lt hin)]
      _ = 1 % d := hn
  have hsubset : ((List.range n).map fun i ↦ b.pow i % d) ⊆ List.range d := by
    intro r hr
    obtain ⟨i, -, rfl⟩ := List.mem_map.mp hr
    exact List.mem_range.mpr (Nat.mod_lt _ hd)
  have hle := List.Nodup.length_le_of_subset hnodup hsubset
  rwa [List.length_map, List.length_range, List.length_range] at hle

end

/-! ## Certificates -/

/-- A power modulo `m` by repeated squaring, for an exponent with the given number of binary
digits. -/
def powMod (m : Nat) : Nat → Nat → Nat → Nat
  | 0, _, _ => 1 % m
  | digits + 1, a, n => (if n % 2 = 1 then a else 1) * powMod m digits (a * a % m) (n / 2) % m

/-- Repeated squaring computes the power if the exponent has no further digits. -/
theorem powMod_eq {digits a : Nat} (h : n < Nat.pow 2 digits) :
    powMod m digits a n = a.pow n % m := by
  simp only [Nat.pow_eq] at h ⊢
  induction digits generalizing a n with
  | zero =>
    obtain rfl : n = 0 := by simpa using h
    rfl
  | succ digits ih =>
    have hsquare : (a * a % m) ^ (n / 2) % m = a ^ (2 * (n / 2)) % m := by
      rw [← Nat.pow_mod, Nat.pow_mul, Nat.pow_two]
    rw [powMod, ih (by omega), hsquare, Nat.mul_mod_mod]
    rcases Nat.mod_two_eq_zero_or_one n with h0 | h1
    · rw [if_neg (by omega), Nat.one_mul, show 2 * (n / 2) = n by omega]
    · rw [if_pos h1, ← Nat.pow_succ', show (2 * (n / 2)).succ = n by omega]

/-- A number of at most 253 binary digits is prime if the known prime factors of `p - 1` make up
more than its square root, and the power of `a` that lacks any of them differs from one modulo
every divisor of `p`. -/
theorem indivisible_of_pow (a rest : Nat) (factors : List Nat)
    (hfactors : ∀ q ∈ factors, Indivisible q) (hp : 1 < p ∧ p < Nat.pow 2 253)
    (hsplit : rest * productOf factors = p - 1) (hlarge : p < productOf factors * productOf factors)
    (hone : powMod p 253 a (p - 1) = 1)
    (hother : ∀ q ∈ factors, Nat.gcd (powMod p 253 a ((p - 1) / q) - 1) p = 1) :
    Indivisible p := by
  refine indivisible_of_le hp.1 hlarge fun d hd hne ↦ ?_
  have hpos : 0 < d := Nat.pos_of_dvd_of_pos hd (Nat.lt_trans Nat.one_pos hp.1)
  have hpow {n : Nat} (hn : n ≤ p - 1) : powMod p 253 a n % d = a.pow n % d := by
    rw [powMod_eq (by omega), Nat.mod_mod_of_dvd _ hd]
  have hpowers (n : Nat) : a.pow (rest * n) = (a.pow rest).pow n := Nat.pow_mul ..
  have hfull : (a.pow rest).pow (productOf factors) % d = 1 % d := by
    rw [← hpowers, hsplit, ← hpow (Nat.le_refl _), hone]
  refine le_of_pow hpos hfull fun m hm hlt hback ↦ ?_
  have hproper : m.gcd (productOf factors) ≠ productOf factors :=
    Nat.ne_of_lt (Nat.lt_of_le_of_lt (Nat.gcd_le_left _ hm) hlt)
  obtain ⟨q, hq, e, he⟩ := exists_dvd_div hfactors (Nat.gcd_dvd_right ..) hproper
  have hlack : powMod p 253 a ((p - 1) / q) % d = 1 := by
    rw [hpow (Nat.div_le_self ..), ← hsplit, Nat.mul_div_assoc _ (dvd_productOf hq), he, hpowers,
      pow_mul_mod (pow_gcd_mod hback hfull), Nat.mod_eq_of_lt (by omega)]
  have hdiff : d ∣ powMod p 253 a ((p - 1) / q) - 1 := by
    have hsub := Nat.dvd_sub_mod (n := d) (powMod p 253 a ((p - 1) / q))
    rwa [hlack] at hsub
  exact hne (Nat.eq_one_of_dvd_one (hother q hq ▸ Nat.dvd_gcd hdiff hd))

/-! ## The order -/

/-- The larger of the two big factors of `order - 1`. -/
theorem indivisible_factor : Indivisible 276602624281642239937218680557139826668747 := by
  have h₁ : Indivisible 1224481 := indivisible_of_trial 1107 (by decide) (by decide +kernel)
  have h₂ : Indivisible 23 := indivisible_of_trial 5 (by decide) (by decide)
  have h₃ : Indivisible 7 := indivisible_of_trial 3 (by decide) (by decide)
  have h₄ : Indivisible 1257559732178653 :=
    indivisible_of_pow 2 6378972 [1224481, 23, 7] (by simp [h₁, h₂, h₃])
      (by decide +kernel) (by decide) (by decide) (by decide +kernel) (by decide +kernel)
  have h₅ : Indivisible 4434155615661930479 :=
    indivisible_of_pow 2 3526 [1257559732178653] (by simp [h₄])
      (by decide +kernel) (by decide) (by decide) (by decide +kernel) (by decide +kernel)
  have h₆ : Indivisible 172054593956031949258510691 :=
    indivisible_of_pow 2 38802110 [4434155615661930479] (by simp [h₅])
      (by decide +kernel) (by decide) (by decide) (by decide +kernel) (by decide +kernel)
  have h₇ : Indivisible 19757330305831588566944191468367130476339 :=
    indivisible_of_pow 2 114831751082918 [172054593956031949258510691] (by simp [h₆])
      (by decide +kernel) (by decide) (by decide) (by decide +kernel) (by decide +kernel)
  exact indivisible_of_pow 2 14 [19757330305831588566944191468367130476339] (by simp [h₇])
    (by decide +kernel) (by decide) (by decide) (by decide +kernel) (by decide +kernel)

theorem order_indivisible : Indivisible order :=
  indivisible_of_pow 2 26163907866482859529727157400808004
    [276602624281642239937218680557139826668747] (by simp [indivisible_factor])
    (by decide +kernel) (by decide) (by decide) (by decide +kernel) (by decide +kernel)

/-- Scalars have no zero divisors. -/
protected theorem Scalar.mul_ne_zero {a b : Scalar} (ha : a ≠ 0) (hb : b ≠ 0) : a * b ≠ 0 := by
  have hnot {c : Scalar} (hc : c ≠ 0) : ¬order ∣ c.val := fun h ↦
    hc (val_eq_zero.mp (Nat.eq_zero_of_dvd_of_lt h c.isLt))
  intro h
  have hdvd : order ∣ a.val * b.val := Nat.dvd_of_mod_eq_zero (val_eq_zero.mpr h)
  exact (order_indivisible.dvd_or_dvd hdvd).elim (hnot ha) (hnot hb)

end Quadratize
