/-!
# Scalars

The prime field of order `2 ^ 252 + 27742317777372353535851937790883648493`. An element is held as
its representative below the order, so equal elements are equal as structures.
-/

namespace Quadratize

/-- The order of the field. -/
def order : Nat := Nat.pow 2 252 + 27742317777372353535851937790883648493

theorem order_pos : 0 < order := by decide

theorem one_lt_order : 1 < order := by decide

/-- A field element, held as its canonical representative. -/
structure Scalar where
  val : Nat
  isLt : val < order
deriving DecidableEq

namespace Scalar

@[ext] theorem ext {a b : Scalar} (h : a.val = b.val) : a = b := by
  cases a; cases b; cases h; rfl

/-! ## Integers as scalars -/

/-- The class of a natural number. -/
def reduce (n : Nat) : Scalar :=
  ⟨n % order, Nat.mod_lt n order_pos⟩

instance : Zero Scalar := ⟨⟨0, order_pos⟩⟩

instance : One Scalar := ⟨⟨1, one_lt_order⟩⟩

instance : Inhabited Scalar := ⟨0⟩

@[simp] theorem val_zero : (0 : Scalar).val = 0 := rfl

@[simp] theorem val_one : (1 : Scalar).val = 1 := rfl

@[simp] theorem val_reduce (n : Nat) : (reduce n).val = n % order := rfl

theorem val_eq_zero {a : Scalar} : a.val = 0 ↔ a = 0 :=
  ⟨fun h ↦ ext h, fun h ↦ h ▸ rfl⟩

/-! ## Arithmetic

Sums and differences of representatives need at most one correction by the order. -/

/-- Adds, taking the order off a sum that reaches it. -/
protected def add (a b : Scalar) : Scalar :=
  if h : a.val + b.val < order then ⟨a.val + b.val, h⟩
  else ⟨a.val + b.val - order, by have := a.isLt; have := b.isLt; omega⟩

/-- Subtracts, lending the order to a smaller minuend. -/
protected def sub (a b : Scalar) : Scalar :=
  if h : b.val ≤ a.val then ⟨a.val - b.val, by have := a.isLt; omega⟩
  else ⟨a.val + order - b.val, by have := a.isLt; omega⟩

/-- Negates; zero is its own negative. -/
protected def neg (a : Scalar) : Scalar :=
  if h : a.val = 0 then 0 else ⟨order - a.val, by have := a.isLt; omega⟩

/-- Multiplies the representatives and reduces. -/
protected def mul (a b : Scalar) : Scalar :=
  reduce (a.val * b.val)

instance : Add Scalar := ⟨Scalar.add⟩

instance : Sub Scalar := ⟨Scalar.sub⟩

instance : Neg Scalar := ⟨Scalar.neg⟩

instance : Mul Scalar := ⟨Scalar.mul⟩

/-- Raises to a power by repeated squaring. -/
protected def pow (a : Scalar) (n : Nat) : Scalar :=
  if n = 0 then 1
  else
    let half := Scalar.pow (a * a) (n / 2)
    if n % 2 = 1 then a * half else half
termination_by n
decreasing_by omega

instance : Pow Scalar Nat := ⟨Scalar.pow⟩

/-- The inverse of a nonzero scalar, as its power with exponent `order - 2`. -/
def inverse? (a : Scalar) : Option Scalar :=
  if a = 0 then none else some (a ^ (order - 2))

theorem val_add (a b : Scalar) : (a + b).val = (a.val + b.val) % order := by
  change (Scalar.add a b).val = _
  have ha := a.isLt
  have hb := b.isLt
  unfold Scalar.add
  split
  · rename_i h; exact (Nat.mod_eq_of_lt h).symm
  · rename_i h
    rw [Nat.mod_eq_sub_mod (by omega), Nat.mod_eq_of_lt (by omega)]

theorem val_neg (a : Scalar) : (-a).val = (order - a.val) % order := by
  change (Scalar.neg a).val = _
  have ha := a.isLt
  unfold Scalar.neg
  split
  · rename_i h; simp [h]
  · change order - a.val = _
    exact (Nat.mod_eq_of_lt (by omega)).symm

theorem val_sub (a b : Scalar) : (a - b).val = (a.val + (order - b.val)) % order := by
  change (Scalar.sub a b).val = _
  have ha := a.isLt
  have hb := b.isLt
  unfold Scalar.sub
  split
  · rename_i h
    rw [Nat.mod_eq_sub_mod (by omega), Nat.mod_eq_of_lt (by omega)]
    change a.val - b.val = _
    omega
  · rw [Nat.mod_eq_of_lt (by omega)]
    change a.val + order - b.val = _
    omega

theorem val_mul (a b : Scalar) : (a * b).val = a.val * b.val % order := rfl

theorem neg_ne_zero {a : Scalar} (h : a ≠ 0) : -a ≠ 0 := by
  intro hn
  have h0 : a.val ≠ 0 := fun he ↦ h (val_eq_zero.mp he)
  have hv := congrArg val hn
  rw [val_neg, Nat.mod_eq_of_lt (by have := order_pos; omega)] at hv
  have := a.isLt
  simp only [val_zero] at hv
  omega

/-! ## Further constructors -/

/-- The class of an integer. -/
def ofInt : Int → Scalar
  | .ofNat n => reduce n
  | .negSucc n => -reduce (n + 1)

/-- Words of up to 64 bits lie below the order. -/
theorem lt_order_of_word {n : Nat} (h : n < Nat.pow 2 64) : n < order :=
  Nat.lt_trans h (by decide)

/-- An unsigned word of 32 bits, held as it is. -/
def ofUInt32 (n : UInt32) : Scalar :=
  ⟨n.toNat, lt_order_of_word (Nat.lt_trans n.toNat_lt (by decide))⟩

/-- An unsigned word of 64 bits. -/
def ofUInt64 (n : UInt64) : Scalar :=
  reduce n.toNat

/-- A signed word of 64 bits. Its absolute value is held as it is, and negated if the word is
negative. -/
def ofInt64 (n : Int64) : Scalar :=
  let magnitude : Scalar :=
    ⟨n.toInt.natAbs, lt_order_of_word (by
      have hle := n.le_toInt
      have hlt := n.toInt_lt
      change n.toInt.natAbs < 2 ^ 64
      omega)⟩
  if n < 0 then -magnitude else magnitude

/-- One for `true` and zero for `false`. -/
def ofBool (b : Bool) : Scalar :=
  if b then 1 else 0

/-- A power of two. -/
def twoPow (n : Nat) : Scalar :=
  reduce (Nat.pow 2 n)

/-- The sum of a list. -/
def sum (xs : List Scalar) : Scalar :=
  xs.foldl (· + ·) 0

/-- The product of a list. -/
def product (xs : List Scalar) : Scalar :=
  xs.foldl (· * ·) 1

/-! ## The signed view -/

/-- A bit of the canonical representative, the lowest at index zero. -/
def bit (a : Scalar) (i : Nat) : Bool :=
  a.val.testBit i

/-- Whether the representative lies above half the order, so that the scalar is shown as a negative
number. -/
def isNegative (a : Scalar) : Bool :=
  order / 2 < a.val

/-- The absolute value of the signed representative. -/
def magnitude (a : Scalar) : Nat :=
  if a.isNegative then order - a.val else a.val

end Scalar

end Quadratize
