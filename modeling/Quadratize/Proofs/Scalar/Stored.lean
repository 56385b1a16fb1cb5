import Quadratize.Proofs.Scalar.Literal

/-!
# Scalars are the prime field

The integer that a scalar stores lies below the order and is read as a class modulo the order.
Whatever is made from a number, a word or a literal stores the class of that number, and every
operation on scalars is the operation of the field on classes.
-/

namespace Quadratize.Scalar

open Text

variable {radix : Radix} {cs : List Char} {a : Scalar} {x : ZMod order}

/-- The stored integer lies below the order and stands for the class. -/
structure Stores (a : Scalar) (x : ZMod order) : Prop where
  lt : a.val < order
  cast_val : (a.val : ZMod order) = x

/-- Scalars stay below the order by themselves, so that only the class is left to be checked. -/
theorem stores_of_toZMod (h : toZMod a = x) : Stores a x :=
  ⟨a.isLt, h⟩

/-! ## The field of classes -/

/-- Reading the stored integer modulo the order. -/
def toZModHom : Scalar →+* ZMod order where
  toFun := toZMod
  map_zero' := toZMod_zero
  map_one' := toZMod_one
  map_add' := toZMod_add
  map_mul' := toZMod_mul

/-- Every class is stored by exactly one scalar. -/
theorem toZMod_bijective : Function.Bijective toZMod :=
  ⟨toZMod_injective, fun x ↦ ⟨reduce x.val, by rw [toZMod_reduce, ZMod.natCast_zmod_val]⟩⟩

theorem toZMod_sum (xs : List Scalar) : toZMod (sum xs) = (xs.map toZMod).sum := by
  have hsum : sum xs = xs.sum := List.sum_eq_foldl.symm
  rw [hsum]
  exact map_list_sum toZModHom xs

theorem toZMod_product (xs : List Scalar) : toZMod (product xs) = (xs.map toZMod).prod := by
  have hprod : product xs = xs.prod := List.prod_eq_foldl.symm
  rw [hprod]
  exact map_list_prod toZModHom xs

/-- The inverse is found for every scalar but zero, and its class is the inverse of the class. -/
theorem map_toZMod_inverse? (a : Scalar) :
    a.inverse?.map toZMod = if a = 0 then none else some (toZMod a)⁻¹ := by
  split_ifs with h
  · rw [inverse?_eq_none.mpr h, Option.map_none]
  · rw [inverse?_eq_some h, Option.map_some]
    exact congrArg some (map_inv₀ toZModHom a)

theorem map_mul_inverse? (a : Scalar) :
    a.inverse?.map (a * ·) = if a = 0 then none else some 1 := by
  split_ifs with h
  · rw [inverse?_eq_none.mpr h, Option.map_none]
  · rw [inverse?_eq_some h, Option.map_some, mul_inv_cancel₀ h]

/-! ## Words and literals -/

theorem toZMod_twoPow (n : ℕ) : toZMod (twoPow n) = 2 ^ n := by
  rw [twoPow, toZMod_reduce, Nat.pow_eq, Nat.cast_pow, Nat.cast_ofNat]

/-- A signed word is the class of its value, whichever sign it has. -/
theorem toZMod_ofInt64 (w : Int64) : toZMod (ofInt64 w) = w.toInt := by
  have hsign : w < 0 ↔ w.toInt < 0 := Int64.lt_iff_toInt_lt
  unfold ofInt64
  split_ifs with h
  · have habs : (w.toInt.natAbs : ℤ) = -w.toInt := by have := hsign.mp h; omega
    rw [toZMod_neg, toZMod, ← Int.cast_natCast, habs, Int.cast_neg, neg_neg]
  · have habs : (w.toInt.natAbs : ℤ) = w.toInt := by have := mt hsign.mpr h; omega
    rw [toZMod, ← Int.cast_natCast, habs]

/-- A literal and the integer that it stands for, before that is reduced. -/
inductive SignedNumeral (radix : Radix) : List Char → ℤ → Prop
  | positive {cs : List Char} {n : ℕ} (h : Magnitude radix cs n) : SignedNumeral radix cs n
  | negative {gap cs : List Char} {n : ℕ} (hgap : IsBlanks gap)
    (h : Magnitude radix cs n) : SignedNumeral radix ('-' :: (gap ++ cs)) (-n)

/-- A text is read as the class of the integer that it stands for between blanks. -/
theorem read_eq_ok_iff_stores :
    read radix cs = .ok a ↔ ∃ z : ℤ, SignedNumeral radix (trim cs) z ∧ Stores a z := by
  rw [read_eq_ok]
  generalize trim cs = t
  constructor
  · intro h
    cases h with
    | positive h => exact ⟨_, .positive h, stores_of_toZMod (by simp)⟩
    | negative hgap h => exact ⟨_, .negative hgap h, stores_of_toZMod (by simp)⟩
  · rintro ⟨z, hz, ha⟩
    cases hz with
    | @positive _ n h =>
      obtain rfl : a = reduce n := toZMod_injective (ha.cast_val.trans (by simp))
      exact .positive h
    | @negative _ _ n hgap h =>
      obtain rfl : a = -reduce n := toZMod_injective (ha.cast_val.trans (by simp))
      exact .negative hgap h

/-! ## All operations -/

/-- Scalars correspond to the classes modulo the order, and everything that makes a scalar stores
the class that it should: of the number, word or literal that is given, or of the result of the
operation in the field. -/
theorem stores_operations (a b : Scalar) (xs : List Scalar) (n : ℕ) (z : ℤ) (w : Int64)
    (u : UInt32) (v : UInt64) (t : Bool) (radix : Radix) (cs : List Char) :
    Function.Bijective toZMod ∧
    (Stores 0 0 ∧ Stores 1 1 ∧ Stores (reduce n) n ∧ Stores (ofInt z) z ∧
      Stores (ofInt64 w) w.toInt ∧ Stores (ofUInt32 u) u.toNat ∧ Stores (ofUInt64 v) v.toNat ∧
      Stores (ofBool t) t.toNat ∧ Stores (twoPow n) (2 ^ n)) ∧
    (read radix cs = .ok a ↔ ∃ m : ℤ, SignedNumeral radix (trim cs) m ∧ Stores a m) ∧
    (Stores (a + b) (toZMod a + toZMod b) ∧ Stores (a - b) (toZMod a - toZMod b) ∧
      Stores (-a) (-toZMod a) ∧ Stores (a * b) (toZMod a * toZMod b) ∧
      Stores (a ^ n) (toZMod a ^ n) ∧ Stores (sum xs) (xs.map toZMod).sum ∧
      Stores (product xs) (xs.map toZMod).prod) ∧
    a.inverse?.map toZMod = (if a = 0 then none else some (toZMod a)⁻¹) ∧
    a.inverse?.map (a * ·) = if a = 0 then none else some 1 := by
  have hbool : toZMod (ofBool t) = t.toNat := by cases t <;> simp [ofBool]
  refine ⟨toZMod_bijective, ⟨?_, ?_, ?_, ?_, ?_, ?_, ?_, ?_, ?_⟩, read_eq_ok_iff_stores,
    ⟨?_, ?_, ?_, ?_, ?_, ?_, ?_⟩, map_toZMod_inverse? a, map_mul_inverse? a⟩
  · exact stores_of_toZMod toZMod_zero
  · exact stores_of_toZMod toZMod_one
  · exact stores_of_toZMod (toZMod_reduce n)
  · exact stores_of_toZMod (toZMod_ofInt z)
  · exact stores_of_toZMod (toZMod_ofInt64 w)
  · exact stores_of_toZMod rfl
  · exact stores_of_toZMod (toZMod_reduce v.toNat)
  · exact stores_of_toZMod hbool
  · exact stores_of_toZMod (toZMod_twoPow n)
  · exact stores_of_toZMod (toZMod_add a b)
  · exact stores_of_toZMod (toZMod_sub a b)
  · exact stores_of_toZMod (toZMod_neg a)
  · exact stores_of_toZMod (toZMod_mul a b)
  · exact stores_of_toZMod (toZMod_pow a n)
  · exact stores_of_toZMod (toZMod_sum xs)
  · exact stores_of_toZMod (toZMod_product xs)

end Quadratize.Scalar
