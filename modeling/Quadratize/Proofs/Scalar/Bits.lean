import Mathlib.Algebra.BigOperators.Group.List.Basic
import Mathlib.Data.Nat.Bitwise
import Mathlib.Tactic.Ring
import Quadratize.Proofs.Scalar.Field

/-!
# Bits of scalars

The low bits of a scalar add up to its representative modulo a power of two.  Up to 252 bits the
sum determines the bits, because it stays below the order.
-/

namespace Quadratize.Scalar

/-- The lowest `k` bits of a scalar as scalars. -/
def bits (a : Scalar) (k : ℕ) : List Scalar :=
  (List.range k).map fun i ↦ ofBool (a.bit i)

/-- The sum `2 ^ 0 * b₀ + 2 ^ 1 * b₁ + …` of bits, the lowest first. -/
def bitSum (bs : List Scalar) : Scalar :=
  (bs.zipIdx.map fun p ↦ twoPow p.2 * p.1).sum

@[simp] theorem length_bits (a : Scalar) (k : ℕ) : (a.bits k).length = k := by
  simp [bits]

theorem eq_zero_or_one_of_mem_bits {a b : Scalar} {k : ℕ} (h : b ∈ a.bits k) : b = 0 ∨ b = 1 := by
  obtain ⟨i, -, rfl⟩ := List.mem_map.mp h
  cases a.bit i with
  | false => exact .inl rfl
  | true => exact .inr rfl

theorem reduce_add (m n : ℕ) : reduce (m + n) = reduce m + reduce n := Nat.cast_add m n

theorem reduce_mul (m n : ℕ) : reduce (m * n) = reduce m * reduce n := Nat.cast_mul m n

@[simp] theorem reduce_val (a : Scalar) : reduce a.val = a :=
  ext (Nat.mod_eq_of_lt a.isLt)

theorem twoPow_succ (n : ℕ) : twoPow (n + 1) = 2 * twoPow n := by
  rw [twoPow, Nat.pow_eq, pow_succ', reduce_mul]
  rfl

@[simp] theorem twoPow_zero : twoPow 0 = 1 := rfl

/-- The sum of bits with places that start at `n`. -/
theorem sum_zipIdx_add (bs : List Scalar) (n : ℕ) :
    ((bs.zipIdx (n + 1)).map fun p ↦ twoPow p.2 * p.1).sum =
      2 * ((bs.zipIdx n).map fun p ↦ twoPow p.2 * p.1).sum := by
  induction bs generalizing n with
  | nil => simp
  | cons b bs ih =>
    simp only [List.zipIdx_cons, List.map_cons, List.sum_cons, ih, twoPow_succ]
    ring

/-- The lowest bit and twice the sum of the others. -/
theorem bitSum_cons (b : Scalar) (bs : List Scalar) : bitSum (b :: bs) = b + 2 * bitSum bs := by
  rw [bitSum, List.zipIdx_cons, List.map_cons, List.sum_cons, twoPow_zero, one_mul, zero_add,
    sum_zipIdx_add bs 0, bitSum]

/-! ## Bits as numbers -/

/-- The number with the given binary digits, the lowest first. -/
def ofDigits (ds : List Bool) : ℕ :=
  ds.foldr Nat.bit 0

@[simp] theorem ofDigits_cons (d : Bool) (ds : List Bool) :
    ofDigits (d :: ds) = Nat.bit d (ofDigits ds) := rfl

theorem ofDigits_lt (ds : List Bool) : ofDigits ds < 2 ^ ds.length := by
  induction ds with
  | nil => exact Nat.one_pos
  | cons d ds ih =>
    rw [ofDigits_cons, Nat.bit_val, List.length_cons, pow_succ]
    cases d <;> simp <;> omega

theorem testBit_ofDigits (ds : List Bool) (i : ℕ) : (ofDigits ds).testBit i = ds.getD i false := by
  induction ds generalizing i with
  | nil => simp [ofDigits]
  | cons d ds ih =>
    cases i with
    | zero => simp
    | succ i => simp [Nat.testBit_bit_succ, ih]

/-- The digits of a number below a place make up its remainder. -/
theorem ofDigits_testBit (n k : ℕ) : ofDigits ((List.range k).map n.testBit) = n % 2 ^ k := by
  apply Nat.eq_of_testBit_eq
  intro i
  rw [testBit_ofDigits, Nat.testBit_mod_two_pow, List.getD_eq_getElem?_getD, List.getElem?_map]
  by_cases h : i < k
  · rw [List.getElem?_range h]
    simp [h]
  · rw [List.getElem?_eq_none (by simpa using h)]
    simp [h]

theorem ofBool_eq (d : Bool) : ofBool d = reduce d.toNat := by
  cases d <;> rfl

theorem bitSum_map_ofBool (ds : List Bool) : bitSum (ds.map ofBool) = reduce (ofDigits ds) := by
  induction ds with
  | nil => rfl
  | cons d ds ih =>
    rw [List.map_cons, bitSum_cons, ih, ofDigits_cons, Nat.bit_val, reduce_add, reduce_mul,
      ofBool_eq, add_comm]
    rfl

/-- The low bits of a scalar add up to its remainder. -/
theorem bitSum_bits (a : Scalar) (k : ℕ) : bitSum (a.bits k) = reduce (a.val % 2 ^ k) := by
  have h : a.bits k = ((List.range k).map a.val.testBit).map ofBool := by
    rw [List.map_map]
    rfl
  rw [h, bitSum_map_ofBool, ofDigits_testBit]

/-- The low bits of a scalar add up to the scalar itself if there is no higher bit. -/
theorem bitSum_bits_eq_iff {a : Scalar} {k : ℕ} : bitSum (a.bits k) = a ↔ a.val < 2 ^ k := by
  rw [bitSum_bits]
  have hlt : a.val % 2 ^ k < order := (Nat.mod_le _ _).trans_lt a.isLt
  constructor
  · intro h
    have hval := congrArg val h
    rw [val_reduce, Nat.mod_eq_of_lt hlt] at hval
    rw [← hval]
    exact Nat.mod_lt _ (by positivity)
  · intro h
    rw [Nat.mod_eq_of_lt h, reduce_val]

theorem two_pow_lt_order : 2 ^ 252 < order := by decide

/-- Bits whose sum stays below the order are the bits of their sum. -/
theorem eq_bits_of_bitSum {bs : List Scalar} {a : Scalar} (hbit : ∀ b ∈ bs, b = 0 ∨ b = 1)
    (hlen : bs.length ≤ 252) (h : bitSum bs = a) : bs = a.bits bs.length := by
  obtain ⟨ds, rfl⟩ : ∃ ds : List Bool, bs = ds.map ofBool := by
    refine ⟨bs.map fun b ↦ decide (b = 1), ?_⟩
    rw [List.map_map]
    refine (List.map_id bs).symm.trans (List.map_congr_left fun b hb ↦ ?_)
    rcases hbit b hb with rfl | rfl <;> rfl
  rw [List.length_map] at hlen ⊢
  have hlt : ofDigits ds < order :=
    (ofDigits_lt ds).trans_le ((Nat.pow_le_pow_right Nat.two_pos hlen).trans two_pow_lt_order.le)
  rw [bitSum_map_ofBool] at h
  have hval : a.val = ofDigits ds := by rw [← h, val_reduce, Nat.mod_eq_of_lt hlt]
  refine List.ext_getElem (by simp) fun i hi _ ↦ ?_
  have hi' : i < ds.length := by simpa using hi
  simp [bits, bit, hval, testBit_ofDigits, hi']

end Quadratize.Scalar
