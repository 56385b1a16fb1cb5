import Quadratize.Proofs.Form.Standard
import Quadratize.Proofs.Text.Scan

/-!
# Values of formulas

An expression has a value by ordinary arithmetic and a degree by its syntax.  The operations on
polynomials have their meaning on values, so an expression that is lowered keeps its value, and it
is lowered if its degree is at most two.
-/

namespace Quadratize.Formula

open Text

/-! ## Polynomials -/

namespace Poly

variable {p q s : Poly}

/-- The value of a polynomial when each wire has a value. -/
def eval (r : Wire → Scalar) (p : Poly) : Scalar :=
  (p.products.map (Product.eval r)).sum + Affine.eval r p.linear

@[simp] theorem eval_ofAffine (r : Wire → Scalar) (a : Affine Wire) :
    (ofAffine a).eval r = Affine.eval r a :=
  zero_add _

@[simp] theorem eval_add (r : Wire → Scalar) (p q : Poly) :
    (p.add q).eval r = p.eval r + q.eval r := by
  simp only [eval, add, List.map_append, List.sum_append, Affine.eval_add]
  ring

/-- Multiplying the left sides multiplies the value. -/
@[simp] theorem eval_scale (r : Wire → Scalar) (p : Poly) (c : Scalar) :
    (p.scale c).eval r = p.eval r * c := by
  have hterm (t : Product) : Product.eval r ⟨t.lhs.scale c, t.rhs⟩ = t.eval r * c := by
    rw [Product.eval, Affine.eval_scale, Product.eval]
    ring
  simp only [eval, scale, List.map_map, Function.comp_def, hterm, List.sum_map_mul_right,
    Affine.eval_scale, add_mul]

@[simp] theorem eval_neg (r : Wire → Scalar) (p : Poly) : p.neg.eval r = -p.eval r := by
  have hneg (a : Affine Wire) : -a = a.scale (-1) :=
    Sparse.ext_of_eval fun r ↦ by simp
  have hscale : p.neg = p.scale (-1) := by
    simp only [neg, scale, hneg]
  rw [hscale, eval_scale, mul_neg_one]

/-- A polynomial without products has the value of its affine sum. -/
theorem eval_of_asAffine? {a : Affine Wire} (h : p.asAffine? = some a) (r : Wire → Scalar) :
    p.eval r = Affine.eval r a := by
  unfold asAffine? at h
  split_ifs at h with hempty
  cases h
  rw [eval, List.isEmpty_iff.mp hempty]
  exact zero_add _

theorem eval_of_asConstant? {c : Scalar} (h : p.asConstant? = some c) (r : Wire → Scalar) :
    p.eval r = c := by
  obtain ⟨a, ha, hc⟩ := Option.bind_eq_some_iff.mp h
  rw [eval_of_asAffine? ha, Affine.eval_of_asConstant? hc]

/-- A product that is defined has the product of the values. -/
theorem eval_mul? (h : p.mul? q = some s) (r : Wire → Scalar) :
    s.eval r = p.eval r * q.eval r := by
  unfold mul? at h
  split at h
  · rename_i c hq
    cases h
    rw [eval_scale, eval_of_asConstant? hq]
  · rename_i c _ hp
    cases h
    rw [eval_scale, eval_of_asConstant? hp, mul_comm]
  · split at h
    · rename_i a b ha hb
      cases h
      have hlinear : Affine.eval r (0 : Affine Wire) = 0 := rfl
      rw [eval_of_asAffine? ha, eval_of_asAffine? hb]
      simp [eval, Product.eval, hlinear]
    · cases h

/-- The form of a polynomial has its value. -/
@[simp] theorem eval_toForm (r : Wire → Scalar) (p : Poly) : p.toForm.eval r = p.eval r := by
  rw [toForm, QuadForm.eval_ofProducts, List.map_append, List.sum_append, List.map_singleton,
    List.sum_singleton, Product.eval, Affine.eval_constant, mul_one, eval]

end Poly

/-! ## Expressions -/

/-- The number that a run of digits is written for. -/
def digitsNumber (ds : List Char) : ℕ :=
  Nat.ofDigitChars 10 ds 0

namespace Expr

variable {e : Expr} {p : Poly}

/-- The value of an expression by the arithmetic of scalars, when each number of a wire has a
value. -/
def value (r : ℕ → Scalar) : Expr → Scalar
  | number ds => (digitsNumber ds : Scalar)
  | wire ds => r (digitsNumber ds)
  | neg e => -e.value r
  | add a b => a.value r + b.value r
  | sub a b => a.value r - b.value r
  | mul a b => a.value r * b.value r

/-- The degree that can be read off the syntax: sums have the larger degree, products add up the
degrees. -/
def degree : Expr → ℕ
  | number _ => 0
  | wire _ => 1
  | neg e => e.degree
  | add a b | sub a b => max a.degree b.degree
  | mul a b => a.degree + b.degree

/-- The numbers of the wires that occur. -/
def wireNumbers : Expr → List ℕ
  | number _ => []
  | wire ds => [digitsNumber ds]
  | neg e => e.wireNumbers
  | add a b | sub a b | mul a b => a.wireNumbers ++ b.wireNumbers

/-- Every number and every wire of the tree has a run of digits. -/
def Proper : Expr → Prop
  | number ds | wire ds => IsRun ds
  | neg e => e.Proper
  | add a b | sub a b | mul a b => a.Proper ∧ b.Proper

end Expr

theorem digit?_of_isDigit {c : Char} (h : isDigit c = true) :
    digit? 10 c = some (c.toNat - '0'.toNat) := by
  have hzero : '0'.toNat = 48 := rfl
  simp only [isDigit, Bool.and_eq_true, decide_eq_true_eq] at h
  simp only [digit?, h, decide_true, Bool.and_self, if_true, hzero]
  rw [if_pos (by omega)]

theorem readDigits_of_forall {ds : List Char} (h : ∀ d ∈ ds, isDigit d = true) (acc : ℕ) :
    readDigits 10 acc ds = some (Nat.ofDigitChars 10 ds acc) := by
  induction ds generalizing acc with
  | nil => rfl
  | cons d ds ih =>
    obtain ⟨hd, hds⟩ := List.forall_mem_cons.mp h
    rw [readDigits, digit?_of_isDigit hd, Nat.ofDigitChars_cons, mul_comm 10 acc]
    exact ih hds _

/-- A run of digits is read as the number that it is written for. -/
theorem readNumeral?_of_isRun {ds : List Char} (h : IsRun ds) :
    readNumeral? 10 ds = some (digitsNumber ds) := by
  rw [readNumeral?, if_neg (by simpa using h.ne_nil), readDigits_of_forall h.digits, digitsNumber]

/-- A run of digits is read as the wire whose number it is written for. -/
theorem read?_of_isRun {ds : List Char} (h : IsRun ds) {w : Wire} :
    Wire.read? ds = some w ↔ w.id = digitsNumber ds := by
  rw [Wire.read?, readNumeral?_of_isRun h, Option.bind_some, Wire.ofNat?]
  constructor
  · intro hw
    split_ifs at hw
    cases hw
    rfl
  · intro hw
    rw [← hw]
    exact dif_pos w.isLt

namespace Poly

variable {e : Expr} {p : Poly}

/-- An expression keeps its value when it is lowered. -/
theorem eval_ofExpr (he : e.Proper) (h : ofExpr e = .ok p) (r : ℕ → Scalar) :
    p.eval (fun w ↦ r w.id) = e.value r := by
  induction e generalizing p with
  | number ds =>
    cases h
    rw [eval_ofAffine, Affine.eval_constant, readNumeral?_of_isRun he]
    rfl
  | wire ds =>
    unfold ofExpr at h
    split at h
    · rename_i w hw
      cases h
      rw [eval_ofAffine, Affine.eval_var, (read?_of_isRun he).mp hw, Expr.value]
    · cases h
  | neg e ih =>
    obtain ⟨q, hq, h⟩ := bind_eq_ok.mp h
    cases h
    rw [eval_neg, ih he hq, Expr.value]
  | add a b iha ihb =>
    obtain ⟨q, hq, h⟩ := bind_eq_ok.mp h
    obtain ⟨s, hs, h⟩ := bind_eq_ok.mp h
    cases h
    rw [eval_add, iha he.1 hq, ihb he.2 hs, Expr.value]
  | sub a b iha ihb =>
    obtain ⟨q, hq, h⟩ := bind_eq_ok.mp h
    obtain ⟨s, hs, h⟩ := bind_eq_ok.mp h
    cases h
    rw [eval_add, eval_neg, iha he.1 hq, ihb he.2 hs, Expr.value, sub_eq_add_neg]
  | mul a b iha ihb =>
    obtain ⟨q, hq, h⟩ := bind_eq_ok.mp h
    obtain ⟨s, hs, h⟩ := bind_eq_ok.mp h
    split at h
    · rename_i t ht
      cases h
      rw [eval_mul? ht, iha he.1 hq, ihb he.2 hs, Expr.value]
    · cases h

/-! ## Degrees -/

/-- The polynomial has at most the given degree: no products below two, no variables below one. -/
structure DegreeLE (p : Poly) (d : ℕ) : Prop where
  products : d ≤ 1 → p.products = []
  vars : d = 0 → Affine.vars p.linear = []

theorem degreeLE_ofAffine {a : Affine Wire} {d : ℕ} (h : d = 0 → Affine.vars a = []) :
    (ofAffine a).DegreeLE d :=
  ⟨fun _ ↦ rfl, h⟩

namespace DegreeLE

variable {m n : ℕ}

theorem mono (h : p.DegreeLE m) (hmn : m ≤ n) : p.DegreeLE n where
  products := fun hn ↦ h.products (hmn.trans hn)
  vars := fun hn ↦ h.vars (by omega)

theorem neg (h : p.DegreeLE m) : p.neg.DegreeLE m where
  products := fun hm ↦ List.map_eq_nil_iff.mpr (h.products hm)
  vars := fun hm ↦ (Affine.vars_neg p.linear).trans (h.vars hm)

theorem scale (h : p.DegreeLE m) (c : Scalar) : (p.scale c).DegreeLE m where
  products := fun hm ↦ List.map_eq_nil_iff.mpr (h.products hm)
  vars := fun hm ↦ by
    refine List.eq_nil_iff_forall_not_mem.mpr fun w hw ↦ ?_
    have hmem : w ∈ Affine.vars p.linear := Affine.mem_vars_scale hw
    rw [h.vars hm] at hmem
    cases hmem

theorem add (hp : p.DegreeLE m) (hq : q.DegreeLE n) : (p.add q).DegreeLE (max m n) where
  products := fun hmn ↦ by
    obtain ⟨hm, hn⟩ := max_le_iff.mp hmn
    exact List.append_eq_nil_iff.mpr ⟨hp.products hm, hq.products hn⟩
  vars := fun hmn ↦ by
    refine List.eq_nil_iff_forall_not_mem.mpr fun w hw ↦ ?_
    rcases Affine.mem_vars_add hw with hmem | hmem
    · rw [hp.vars (by omega)] at hmem
      cases hmem
    · rw [hq.vars (by omega)] at hmem
      cases hmem

theorem asAffine?_eq (h : p.DegreeLE 1) : p.asAffine? = some p.linear :=
  if_pos (List.isEmpty_iff.mpr (h.products le_rfl))

/-- A polynomial that is not constant has a positive degree. -/
theorem pos (h : p.DegreeLE m) (hp : p.asConstant? = none) : 0 < m := by
  refine Nat.pos_of_ne_zero fun hm ↦ ?_
  rw [asConstant?, (h.mono (by omega)).asAffine?_eq, Option.bind_some,
    Affine.asConstant?_eq_none] at hp
  exact hp (h.vars hm)

/-- Two polynomials can be multiplied if their degrees add up to at most two. -/
theorem exists_mul? (hp : p.DegreeLE m) (hq : q.DegreeLE n) (hmn : m + n ≤ 2) :
    ∃ s, p.mul? q = some s ∧ s.DegreeLE (m + n) := by
  unfold mul?
  cases hqc : q.asConstant? with
  | some c => exact ⟨_, rfl, (hp.scale c).mono (Nat.le_add_right m n)⟩
  | none =>
    cases hpc : p.asConstant? with
    | some c => exact ⟨_, rfl, (hq.scale c).mono (Nat.le_add_left n m)⟩
    | none =>
      have hm := hp.pos hpc
      have hn := hq.pos hqc
      rw [(hp.mono (by omega)).asAffine?_eq, (hq.mono (by omega)).asAffine?_eq]
      exact ⟨_, rfl, fun h ↦ absurd h (by omega), fun h ↦ absurd h (by omega)⟩

end DegreeLE

/-- An expression of degree at most two is lowered if the numbers of its wires are in range. -/
theorem exists_ofExpr (he : e.Proper) (hwires : ∀ n ∈ e.wireNumbers, n < wireLimit)
    (hdegree : e.degree ≤ 2) : ∃ p, ofExpr e = .ok p ∧ p.DegreeLE e.degree := by
  induction e with
  | number ds => exact ⟨_, rfl, degreeLE_ofAffine fun _ ↦ Affine.vars_constant _⟩
  | wire ds =>
    let w : Wire := ⟨digitsNumber ds, hwires _ List.mem_cons_self⟩
    have hw : Wire.read? ds = some w := (read?_of_isRun he).mpr rfl
    refine ⟨ofAffine (Affine.var w), ?_, degreeLE_ofAffine nofun⟩
    rw [ofExpr, hw]
  | neg e ih =>
    obtain ⟨p, hp, hd⟩ := ih he hwires hdegree
    exact ⟨p.neg, bind_eq_ok.mpr ⟨p, hp, rfl⟩, hd.neg⟩
  | add a b iha ihb =>
    obtain ⟨hwa, hwb⟩ := List.forall_mem_append.mp hwires
    obtain ⟨hda, hdb⟩ := max_le_iff.mp hdegree
    obtain ⟨p, hp, hdp⟩ := iha he.1 hwa hda
    obtain ⟨q, hq, hdq⟩ := ihb he.2 hwb hdb
    exact ⟨p.add q, bind_eq_ok.mpr ⟨p, hp, bind_eq_ok.mpr ⟨q, hq, rfl⟩⟩, hdp.add hdq⟩
  | sub a b iha ihb =>
    obtain ⟨hwa, hwb⟩ := List.forall_mem_append.mp hwires
    obtain ⟨hda, hdb⟩ := max_le_iff.mp hdegree
    obtain ⟨p, hp, hdp⟩ := iha he.1 hwa hda
    obtain ⟨q, hq, hdq⟩ := ihb he.2 hwb hdb
    exact ⟨p.add q.neg, bind_eq_ok.mpr ⟨p, hp, bind_eq_ok.mpr ⟨q, hq, rfl⟩⟩, hdp.add hdq.neg⟩
  | mul a b iha ihb =>
    obtain ⟨hwa, hwb⟩ := List.forall_mem_append.mp hwires
    rw [Expr.degree] at hdegree
    obtain ⟨p, hp, hdp⟩ := iha he.1 hwa (by omega)
    obtain ⟨q, hq, hdq⟩ := ihb he.2 hwb (by omega)
    obtain ⟨s, hs, hds⟩ := hdp.exists_mul? hdq hdegree
    refine ⟨s, bind_eq_ok.mpr ⟨p, hp, bind_eq_ok.mpr ⟨q, hq, ?_⟩⟩, hds⟩
    rw [hs]
    rfl

end Poly

end Quadratize.Formula
