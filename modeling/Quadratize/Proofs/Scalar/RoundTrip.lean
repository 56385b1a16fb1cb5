import Quadratize.Proofs.Scalar.Literal

/-!
# Written scalars are read back

A scalar is read back from each of its written forms, and a numeral of any size is read as the
class of its number, with or without a sign, a mark of its base and blanks around it.
-/

namespace Quadratize.Scalar

open Text

variable {radix : Radix} {cs pre post : List Char} {a : Scalar}

/-- Blanks around a literal do not matter. -/
theorem Literal.read_blanks (h : Literal radix cs a) (hpre : IsBlanks pre) (hpost : IsBlanks post) :
    Scalar.read radix (pre ++ (cs ++ post)) = .ok a := by
  rw [read_eq_ok, h.isNeat.trim_blanks hpre hpost]
  exact h

theorem literal_toDecimal (a : Scalar) : Literal .dec a.toDecimal a := by
  have hmark : [] ∈ Radix.dec.marks := List.mem_cons_self
  have h := Literal.positive (magnitude_numeral hmark a.val)
  rwa [reduce_val] at h

theorem val_neg_reduce (n : ℕ) : ((-reduce n).val : ℤ) = -(n : ℤ) % order := by
  rw [val_neg, val_reduce, Int.natCast_mod, Nat.cast_sub (Nat.mod_lt n order_pos).le,
    Int.natCast_mod, Int.sub_emod_emod, Int.sub_eq_add_neg, Int.add_emod_left]

/-- Every scalar is read back from its signed form and its unsigned forms.  The numeral of any
number is read as its remainder modulo the order, and behind a minus sign as the remainder of the
negative, with blanks around the sign and the mark of the base in front of the digits. -/
theorem read_written :
    (∀ a : Scalar, read .hex a.toSignedHex = .ok a ∧ read .hex a.toHex = .ok a ∧
      read .dec a.toDecimal = .ok a) ∧
    ∀ (radix : Radix) (n : ℕ), ∀ mark ∈ radix.marks, ∀ pre gap post : List Char,
      IsBlanks pre → IsBlanks gap → IsBlanks post →
      (∃ a, read radix (pre ++ (mark ++ numeral radix.base n ++ post)) = .ok a ∧
        a.val = n % order) ∧
      ∃ a, read radix (pre ++ ('-' :: (gap ++ (mark ++ numeral radix.base n)) ++ post)) = .ok a ∧
        (a.val : ℤ) = -(n : ℤ) % order := by
  refine ⟨fun a ↦
    ⟨(literal_toSignedHex a).read, (literal_toHex a).read, (literal_toDecimal a).read⟩,
    fun radix n mark hmark pre gap post hpre hgap hpost ↦ ?_⟩
  have hmagnitude := magnitude_numeral hmark n
  exact ⟨⟨_, (Literal.positive hmagnitude).read_blanks hpre hpost, val_reduce n⟩,
    ⟨_, (Literal.negative hgap hmagnitude).read_blanks hpre hpost, val_neg_reduce n⟩⟩

/-- One more than the order, behind a sign, a mark and blanks, is read as minus one. -/
theorem read_written_aboveOrder :
    read .hex " -\t0X1000000000000000000000000000000014def9dea2f79cd65812631a5cf5d3ee\n".toList =
      .ok (-1) := by
  have hblank {c : Char} (hc : isBlank c = true) : IsBlanks [c] := List.forall_mem_singleton.mpr hc
  obtain ⟨a, hread, hval⟩ := (read_written.2 .hex (order + 1) ['0', 'X'] (by decide)
    [' '] ['\t'] ['\n'] (hblank rfl) (hblank rfl) (hblank rfl)).2
  have htext : " -\t0X1000000000000000000000000000000014def9dea2f79cd65812631a5cf5d3ee\n".toList =
      [' '] ++ ('-' :: (['\t'] ++ (['0', 'X'] ++ numeral 16 (order + 1))) ++ ['\n']) := by
    decide +kernel
  have ha : a = -1 := ext (Int.ofNat.inj (hval.trans (by decide +kernel)))
  rw [htext, ← ha]
  exact hread

end Quadratize.Scalar
