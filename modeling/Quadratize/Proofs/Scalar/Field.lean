import Mathlib.Algebra.Field.ZMod
import Mathlib.FieldTheory.Finite.Basic
import Quadratize.Scalar.Prime

/-!
# Scalars are a field

Reading the representative of a scalar in `ZMod order` is injective and commutes with every
operation, so the laws of a commutative ring carry over.  Inverses are powers with exponent
`order - 2`; they are right because the order is prime.
-/

namespace Quadratize

/-- The order of the field is prime. -/
theorem order_prime : order.Prime :=
  Nat.prime_def.mpr order_indivisible

instance : Fact order.Prime := ⟨order_prime⟩

namespace Scalar

/-- The class of the representative. -/
def toZMod (a : Scalar) : ZMod order := a.val

theorem toZMod_injective : Function.Injective toZMod := by
  intro a b h
  have hmod : a.val % order = b.val % order := (ZMod.natCast_eq_natCast_iff' _ _ _).mp h
  rw [Nat.mod_eq_of_lt a.isLt, Nat.mod_eq_of_lt b.isLt] at hmod
  exact ext hmod

@[simp] theorem toZMod_zero : toZMod 0 = 0 := Nat.cast_zero

@[simp] theorem toZMod_one : toZMod 1 = 1 := Nat.cast_one

@[simp] theorem toZMod_reduce (n : ℕ) : toZMod (reduce n) = n := ZMod.natCast_mod n order

@[simp] theorem toZMod_add (a b : Scalar) : toZMod (a + b) = toZMod a + toZMod b := by
  rw [toZMod, val_add, ZMod.natCast_mod, Nat.cast_add, toZMod, toZMod]

@[simp] theorem toZMod_mul (a b : Scalar) : toZMod (a * b) = toZMod a * toZMod b := by
  rw [toZMod, val_mul, ZMod.natCast_mod, Nat.cast_mul, toZMod, toZMod]

/-- The order minus a representative is the class of the negative. -/
theorem cast_order_sub (a : Scalar) : ((order - a.val : ℕ) : ZMod order) = -toZMod a := by
  rw [Nat.cast_sub a.isLt.le, ZMod.natCast_self, zero_sub, toZMod]

@[simp] theorem toZMod_neg (a : Scalar) : toZMod (-a) = -toZMod a := by
  rw [toZMod, val_neg, ZMod.natCast_mod, cast_order_sub]

@[simp] theorem toZMod_sub (a b : Scalar) : toZMod (a - b) = toZMod a - toZMod b := by
  rw [toZMod, val_sub, ZMod.natCast_mod, Nat.cast_add, cast_order_sub, ← sub_eq_add_neg, ← toZMod]

@[simp] theorem toZMod_ofInt (n : ℤ) : toZMod (ofInt n) = n := by
  cases n with
  | ofNat n => simp [ofInt]
  | negSucc n => simp [ofInt, Int.cast_negSucc]

/-- One step of repeated squaring. -/
theorem pow_eq (a : Scalar) (n : ℕ) :
    a ^ n = if n = 0 then 1
      else if n % 2 = 1 then a * (a * a) ^ (n / 2) else (a * a) ^ (n / 2) := by
  change Scalar.pow a n = _
  rw [Scalar.pow]
  rfl

@[simp] theorem toZMod_pow (a : Scalar) (n : ℕ) : toZMod (a ^ n) = toZMod a ^ n := by
  induction n using Nat.strongRecOn generalizing a with
  | ind n ih =>
    rw [pow_eq]
    split_ifs with h0 h1
    · simp [h0]
    · rw [toZMod_mul, ih (n / 2) (by omega), toZMod_mul, ← pow_two, ← pow_mul, ← pow_succ',
        show 2 * (n / 2) + 1 = n by omega]
    · rw [ih (n / 2) (by omega), toZMod_mul, ← pow_two, ← pow_mul, show 2 * (n / 2) = n by omega]

/-! ## Instances -/

instance : NatCast Scalar := ⟨reduce⟩

instance : IntCast Scalar := ⟨ofInt⟩

instance : SMul ℕ Scalar := ⟨fun n a ↦ reduce n * a⟩

instance : SMul ℤ Scalar := ⟨fun n a ↦ ofInt n * a⟩

/-- Scalars inherit the ring laws of the classes modulo the order. -/
instance : CommRing Scalar :=
  toZMod_injective.commRing toZMod toZMod_zero toZMod_one toZMod_add toZMod_mul toZMod_neg
    toZMod_sub (fun n a ↦ by
      change toZMod (reduce n * a) = n • toZMod a
      rw [toZMod_mul, toZMod_reduce, nsmul_eq_mul])
    (fun n a ↦ by
      change toZMod (ofInt n * a) = n • toZMod a
      rw [toZMod_mul, toZMod_ofInt, zsmul_eq_mul])
    toZMod_pow toZMod_reduce toZMod_ofInt

/-- The inverse is found for every scalar but zero, and it is right by Fermat's theorem. -/
theorem mul_of_inverse? {a b : Scalar} (h : a.inverse? = some b) : a * b = 1 := by
  unfold inverse? at h
  split_ifs at h with ha
  obtain rfl := Option.some.inj h
  have hne : toZMod a ≠ 0 := fun he ↦ ha (toZMod_injective (he.trans toZMod_zero.symm))
  apply toZMod_injective
  rw [toZMod_mul, toZMod_pow, ← pow_succ', toZMod_one,
    show order - 2 + 1 = order - 1 by have := order_prime.two_le; omega]
  exact ZMod.pow_card_sub_one_eq_one hne

theorem inverse?_eq_none {a : Scalar} : a.inverse? = none ↔ a = 0 := by
  unfold inverse?
  split_ifs with h <;> simp [h]

instance : Inv Scalar := ⟨fun a ↦ a.inverse?.getD 0⟩

theorem inverse?_eq_some {a : Scalar} (h : a ≠ 0) : a.inverse? = some a⁻¹ := by
  cases hi : a.inverse? with
  | none => exact absurd (inverse?_eq_none.mp hi) h
  | some b =>
    change some b = some (a.inverse?.getD 0)
    rw [hi, Option.getD_some]

instance : Nontrivial Scalar := ⟨0, 1, fun h ↦ Nat.zero_ne_one (congrArg val h)⟩

/-- Scalars are a field, with zero as the inverse of zero. -/
instance : Field Scalar where
  mul_inv_cancel _ h := mul_of_inverse? (inverse?_eq_some h)
  inv_zero := by
    change (inverse? 0).getD 0 = 0
    rw [inverse?_eq_none.mpr rfl, Option.getD_none]
  nnqsmul := _
  nnqsmul_def := fun _ _ ↦ rfl
  qsmul := _
  qsmul_def := fun _ _ ↦ rfl

end Scalar

end Quadratize
