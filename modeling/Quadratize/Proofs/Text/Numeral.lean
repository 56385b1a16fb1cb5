import Quadratize.Wire
import Quadratize.Text.Scan
import Mathlib.Tactic.IntervalCases

/-!
# Numerals are read back

A numeral is a nonempty run of digits, and the number that it stands for is the one it was written
for.  What follows a numeral in a text does not start with a digit, so a scanner splits off the
numeral and nothing else.
-/

namespace Quadratize

namespace Text

variable {radix : Nat}

/-! ## Digits -/

/-- The digit of a value below the radix has that value. -/
theorem digit?_digitChar (hradix : radix ≤ 16) {d : Nat} (hd : d < radix) :
    digit? radix d.digitChar = some d := by
  have hd16 : d < 16 := Nat.lt_of_lt_of_le hd hradix
  unfold digit?
  interval_cases d <;> simp [Nat.digitChar, hd]

theorem readDigits_append (acc : Nat) (cs ds : List Char) :
    readDigits radix acc (cs ++ ds) =
      (readDigits radix acc cs).bind fun n ↦ readDigits radix n ds := by
  induction cs generalizing acc with
  | nil => rfl
  | cons c cs ih =>
    rw [List.cons_append, readDigits, readDigits]
    cases digit? radix c with
    | none => rfl
    | some d => exact ih _

/-! ## Numerals -/

theorem numeral_ne_nil (n : Nat) : numeral radix n ≠ [] :=
  Nat.toDigits_ne_nil

/-- The last digit comes off the end of a numeral. -/
theorem numeral_of_le (hradix : 1 < radix) {n : Nat} (h : radix ≤ n) :
    numeral radix n = numeral radix (n / radix) ++ [(n % radix).digitChar] :=
  Nat.toDigits_of_base_le hradix h

/-- A numeral is a single digit, or the numeral of the quotient by the radix and the digit of the
remainder. -/
theorem numeral_induction (hradix : 1 < radix) {P : List Char → Nat → Prop}
    (digit : ∀ d < radix, P [d.digitChar] d)
    (snoc : ∀ cs n, P cs n → ∀ d < radix, P (cs ++ [d.digitChar]) (n * radix + d)) (n : Nat) :
    P (numeral radix n) n := by
  induction n using Nat.strongRecOn with
  | ind n ih =>
    by_cases hn : n < radix
    · rw [numeral, Nat.toDigits_of_lt_base hn]
      exact digit n hn
    · have hn : radix ≤ n := Nat.le_of_not_lt hn
      have hdiv : n / radix < n := Nat.div_lt_self (by omega) hradix
      have hmod : n % radix < radix := Nat.mod_lt n (by omega)
      have hstep := snoc _ _ (ih _ hdiv) (n % radix) hmod
      rwa [Nat.div_add_mod', ← numeral_of_le hradix hn] at hstep

theorem readDigits_numeral (hradix : 1 < radix) (hmax : radix ≤ 16) (n : Nat) :
    readDigits radix 0 (numeral radix n) = some n := by
  apply numeral_induction (P := fun cs n ↦ readDigits radix 0 cs = some n) hradix
  · intro d hd
    rw [readDigits, digit?_digitChar hmax hd]
    simp [readDigits]
  · intro cs n ih d hd
    rw [readDigits_append, ih, Option.bind_some, readDigits, digit?_digitChar hmax hd]
    rfl

/-- A numeral stands for the number that it was written for. -/
theorem readNumeral?_numeral (hradix : 1 < radix) (hmax : radix ≤ 16) (n : Nat) :
    readNumeral? radix (numeral radix n) = some n := by
  rw [readNumeral?, if_neg (by simpa using numeral_ne_nil n)]
  exact readDigits_numeral hradix hmax n

@[simp] theorem readNumeral?_decimal (n : Nat) : readNumeral? 10 (decimal n) = some n :=
  readNumeral?_numeral (by decide) (by decide) n

/-- A base-16 numeral consists of digits and of the letters `a` to `f`. -/
theorem mem_numeral (hradix : 1 < radix) (hmax : radix ≤ 16) {n : Nat} {c : Char}
    (h : c ∈ numeral radix n) : ∃ d < 16, d < radix ∧ c = d.digitChar := by
  revert h
  apply numeral_induction (P := fun cs _ ↦ c ∈ cs → ∃ d < 16, d < radix ∧ c = d.digitChar) hradix
  · intro d hd hc
    exact ⟨d, by omega, hd, List.mem_singleton.mp hc⟩
  · intro cs _ ih d hd hc
    rcases List.mem_append.mp hc with hc | hc
    · exact ih hc
    · exact ⟨d, by omega, hd, List.mem_singleton.mp hc⟩

/-- A numeral has no characters but base-16 digits. -/
theorem notMem_numeral (hradix : 1 < radix) (hmax : radix ≤ 16) {c : Char}
    (h : digit? 16 c = none) (n : Nat) : c ∉ numeral radix n := by
  intro hc
  obtain ⟨d, hd, -, rfl⟩ := mem_numeral hradix hmax hc
  rw [digit?_digitChar (by decide) hd] at h
  cases h

/-! ## Decimal numerals -/

theorem decimal_ne_nil (n : Nat) : decimal n ≠ [] :=
  numeral_ne_nil n

theorem isDigit_of_mem_decimal {n : Nat} {c : Char} (h : c ∈ decimal n) : isDigit c = true := by
  obtain ⟨d, -, hd, rfl⟩ := mem_numeral (by decide) (by decide) h
  interval_cases d <;> rfl

/-- A count below the limit is read back. -/
theorem readBelow?_decimal {limit n : Nat} (h : n < limit) :
    readBelow? limit (decimal n) = some n := by
  have hplus : dropPlus (decimal n) = decimal n := by
    obtain ⟨c, cs, hcons⟩ := List.exists_cons_of_ne_nil (decimal_ne_nil n)
    have hc : isDigit c = true := isDigit_of_mem_decimal (hcons ▸ List.mem_cons_self)
    rw [hcons]
    unfold dropPlus
    split
    · rename_i heq
      obtain ⟨rfl, -⟩ := List.cons.inj heq
      cases hc
    · rfl
  rw [readBelow?, hplus, readNumeral?_decimal]
  exact if_pos h

theorem lt_of_readBelow? {limit n : Nat} {cs : List Char} (h : readBelow? limit cs = some n) :
    n < limit := by
  unfold readBelow? at h
  split at h
  · split_ifs at h with hlt
    obtain rfl := Option.some.inj h
    exact hlt
  · cases h

end Text

namespace Wire

open Text

@[simp] theorem read?_render (w : Wire) : read? w.render = some w := by
  rw [read?, render, readNumeral?_decimal, Option.bind_some, ofNat?, dif_pos w.isLt]

theorem isDigit_of_mem_render {w : Wire} {c : Char} (h : c ∈ w.render) : isDigit c = true :=
  isDigit_of_mem_decimal h

end Wire

end Quadratize
