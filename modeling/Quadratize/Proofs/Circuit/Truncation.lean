import Quadratize.Proofs.Circuit.Evaluability

/-!
# Splitting and packing

A wire that is split into bits and packed again is truncated to its low bits, and bits that are
packed and split again come back as long as no sum of so many bits reaches the order.
-/

namespace Quadratize

namespace Scalar

theorem order_lt_two_pow : order < 2 ^ 253 := by decide

/-- The sum of the low bits is the remainder itself, which is below the order. -/
theorem val_bitSum_bits (a : Scalar) (k : ℕ) : (bitSum (a.bits k)).val = a.val % 2 ^ k := by
  rw [bitSum_bits, val_reduce]
  exact Nat.mod_eq_of_lt ((Nat.mod_le _ _).trans_lt a.isLt)

/-- From 253 bits on nothing is cut off. -/
theorem val_lt_two_pow (a : Scalar) {k : ℕ} (hk : 253 ≤ k) : a.val < 2 ^ k :=
  calc a.val
    _ < order := a.isLt
    _ < 2 ^ 253 := order_lt_two_pow
    _ ≤ 2 ^ k := Nat.pow_le_pow_right Nat.two_pos hk

/-- The bits of the order are 253 bits that are not the bits of their sum, which is zero. -/
theorem exists_ne_bits_bitSum :
    ∃ bs : List Scalar, bs.length = 253 ∧ (∀ b ∈ bs, b = 0 ∨ b = 1) ∧ (bitSum bs).bits 253 ≠ bs := by
  refine ⟨((List.range 253).map order.testBit).map ofBool, by simp, fun b hb ↦ ?_, fun h ↦ ?_⟩
  · obtain ⟨d, -, rfl⟩ := List.mem_map.mp hb
    cases d with
    | false => exact .inl rfl
    | true => exact .inr rfl
  · have hsum : bitSum (((List.range 253).map order.testBit).map ofBool) = 0 := by
      rw [bitSum_map_ofBool, ofDigits_testBit, Nat.mod_eq_of_lt order_lt_two_pow]
      exact ext (Nat.mod_self order)
    rw [hsum, bits, List.map_map] at h
    have hlowest := List.map_inj_left.mp h 0 (List.mem_range.mpr (by decide))
    exact absurd hlowest (by decide)

end Scalar

namespace Circuit

variable {c : Circuit} {r : Wire → Scalar} {x z : Wire} {bits ins outs : List Wire}

/-- The wire is split into the bits. -/
def Splits (c : Circuit) (x : Wire) (bits : List Wire) : Prop :=
  ∃ note, ⟨.split, [x], bits, note⟩ ∈ c.gates

/-- The bits are packed into the wire. -/
def Packs (c : Circuit) (bits : List Wire) (z : Wire) : Prop :=
  ∃ note, ⟨.pack, bits, [z], note⟩ ∈ c.gates

theorem Splits.map_eq (h : c.Splits x bits) (hr : c.Satisfies r) :
    bits.map r = (r x).bits bits.length := by
  obtain ⟨note, hg⟩ := h
  exact hr _ hg

theorem Packs.eq_bitSum (h : c.Packs bits z) (hr : c.Satisfies r) :
    r z = Scalar.bitSum (bits.map r) := by
  obtain ⟨note, hg⟩ := h
  exact hr _ hg

theorem Splits.zero_or_one (h : c.Splits x bits) (hr : c.Satisfies r) :
    ∀ b ∈ bits, r b = 0 ∨ r b = 1 := by
  intro b hb
  have hmem : r b ∈ (r x).bits bits.length := h.map_eq hr ▸ List.mem_map_of_mem hb
  exact Scalar.eq_zero_or_one_of_mem_bits hmem

/-- What is split and packed again. -/
theorem Splits.eq_bitSum (h : c.Splits x bits) (hpack : c.Packs bits z) (hr : c.Satisfies r) :
    r z = Scalar.bitSum ((r x).bits bits.length) := by
  rw [hpack.eq_bitSum hr, h.map_eq hr]

/-- What is packed and split again. -/
theorem Packs.map_eq (h : c.Packs ins z) (hsplit : c.Splits z outs) (hr : c.Satisfies r)
    (hlength : outs.length = ins.length) (hle : ins.length ≤ 252)
    (hbit : ∀ b ∈ ins, r b = 0 ∨ r b = 1) : outs.map r = ins.map r := by
  have hbits : ins.map r = (r z).bits (ins.map r).length := by
    refine Scalar.eq_bits_of_bitSum ?_ ?_ (h.eq_bitSum hr).symm
    · simpa only [List.forall_mem_map] using hbit
    · rwa [List.length_map]
  rw [hsplit.map_eq hr, hlength, hbits, List.length_map]

/-- Two gates of which the first reads primary inputs and the second outputs of the first are
evaluated on all values for the inputs. -/
theorem Valid.exists_evaluate_pair {g d : Gate} {v : List Scalar} (h : c.Valid)
    (hgates : c.gates = [g, d]) (hg : g.Evaluable) (hd : d.Evaluable) (hins : g.reads ⊆ c.inputWires)
    (hreads : d.reads ⊆ g.outs) :
    (∃ w, c.evaluate v = .ok w) ↔ v.length = c.inputs.length ∧ ∀ a ∈ v.head?, a = 1 := by
  rw [exists_evaluate_ok fun g hg ↦ (h.gates g hg).shaped, hgates]
  refine and_iff_left ⟨List.forall_mem_cons.mpr ⟨hg, List.forall_mem_singleton.mpr hd⟩, ?_⟩
  exact ⟨fun w hw ↦ hins hw, fun w hw ↦ List.mem_append_right _ (hreads hw), trivial⟩

/-- A circuit that splits a primary input and packs the bits, or that packs primary inputs and
splits the sum, is evaluated on all values.  In whatever valid circuit is evaluated, each wire has
its slot, and the primary inputs have the given values.  The bits of a split are zeros and ones, and
a wire into which they are packed again has the value of the wire that was split modulo the power of
two: the same value exactly if that one is below the power, as it always is from 253 bits on.
Conversely up to 252 zeros and ones that are packed come back where the sum is split into as many
bits. -/
theorem split_pack_truncates (hc : c.validate = .ok ()) (v : List Scalar) :
    ((∃ x bits z note note', x ∈ c.inputWires ∧
          c.gates = [⟨.split, [x], bits, note⟩, ⟨.pack, bits, [z], note'⟩]) ∨
        (∃ ins z outs note note', ins ⊆ c.inputWires ∧
          c.gates = [⟨.pack, ins, [z], note⟩, ⟨.split, [z], outs, note'⟩]) →
      ((∃ w, c.evaluate v = .ok w) ↔ v.length = c.inputs.length ∧ ∀ a ∈ v.head?, a = 1)) ∧
    ∀ w, c.evaluate v = .ok w →
      (∀ x ∈ c.driven, w.get? x.id = some (w.wire x)) ∧ c.inputWires.map w.wire = v ∧
      (∀ x bits z, c.Splits x bits → c.Packs bits z →
        (∀ b ∈ bits, w.wire b = 0 ∨ w.wire b = 1) ∧
        (w.wire z).val = (w.wire x).val % 2 ^ bits.length ∧
        (w.wire z = w.wire x ↔ (w.wire x).val < 2 ^ bits.length) ∧
        (253 ≤ bits.length → w.wire z = w.wire x)) ∧
      ∀ ins z outs, c.Packs ins z → c.Splits z outs → outs.length = ins.length →
        ins.length ≤ 252 → (∀ b ∈ ins, w.wire b = 0 ∨ w.wire b = 1) →
        outs.map w.wire = ins.map w.wire := by
  have h : c.Valid := validate_eq_ok.mp hc
  refine ⟨?_, fun w hw ↦ ?_⟩
  · rintro (⟨x, bits, z, note, note', hx, hgates⟩ | ⟨ins, z, outs, note, note', hins, hgates⟩)
    · refine h.exists_evaluate_pair hgates ⟨rfl, nofun⟩ ⟨rfl, nofun⟩ ?_ (List.Subset.refl _)
      exact List.forall_mem_singleton.mpr hx
    · exact h.exists_evaluate_pair hgates ⟨rfl, nofun⟩ ⟨rfl, nofun⟩ hins (List.Subset.refl _)
  · obtain ⟨hsize, hinputs, hsat, -⟩ := h.evaluate_spec hw
    have hslot : ∀ x ∈ c.driven, w.get? x.id = some (w.wire x) := fun x hx ↦
      w.get?_of_lt (i := slotOf (some x)) (hsize ▸ id_lt_idBound (mem_wires_of_driven hx))
    refine ⟨hslot, ?_, fun x bits z hsplit hpack ↦ ?_, fun ins z outs hpack hsplit hlength hle ↦
      hpack.map_eq hsplit hsat hlength hle⟩
    · refine List.map_injective_iff.mpr (Option.some_injective Scalar) ?_
      rw [← hinputs, List.map_map]
      exact List.map_congr_left fun x hx ↦ (hslot x (mem_driven.mpr (.inl hx))).symm
    · have hsum := hsplit.eq_bitSum hpack hsat
      have hiff : w.wire z = w.wire x ↔ (w.wire x).val < 2 ^ bits.length := by
        rw [hsum]
        exact Scalar.bitSum_bits_eq_iff
      refine ⟨hsplit.zero_or_one hsat, ?_, hiff, fun hk ↦ hiff.mpr (Scalar.val_lt_two_pow _ hk)⟩
      rw [hsum, Scalar.val_bitSum_bits]

/-- Three low bits of a primary input. -/
def lowBits : Circuit where
  inputs := [⟨0, []⟩, ⟨1, []⟩]
  gates := [⟨.split, [1], [2, 3, 4], []⟩, ⟨.pack, [2, 3, 4], [5], []⟩]
  outputs := [5]

/-- Three primary inputs that are packed and split again. -/
def repackedBits : Circuit where
  inputs := [⟨0, []⟩, ⟨1, []⟩, ⟨2, []⟩, ⟨3, []⟩]
  gates := [⟨.pack, [1, 2, 3], [4], []⟩, ⟨.split, [4], [5, 6, 7], []⟩]
  outputs := [5, 6, 7]

theorem split_pack_truncates_lowBits :
    (∃ w, lowBits.evaluate [1, .reduce 13] = .ok w ∧ (w.wire 5).val = 5 ∧ w.wire 5 ≠ w.wire 1) ∧
    ∃ w, repackedBits.evaluate [1, 1, 0, 1] = .ok w ∧ [5, 6, 7].map w.wire = [1, 0, 1] := by
  constructor
  · obtain ⟨hevaluates, hspec⟩ :=
      split_pack_truncates (c := lowBits) (by decide) [1, .reduce 13]
    obtain ⟨w, hw⟩ := (hevaluates (.inl ⟨1, [2, 3, 4], 5, [], [], by decide, rfl⟩)).mpr (by decide)
    obtain ⟨-, hinputs, hsplit, -⟩ := hspec w hw
    obtain ⟨-, hval, hiff, -⟩ := hsplit 1 [2, 3, 4] 5 ⟨[], by decide⟩ ⟨[], by decide⟩
    have hone : w.wire 1 = .reduce 13 := (List.cons.inj (List.cons.inj hinputs).2).1
    rw [hone] at hval hiff
    exact ⟨w, hw, hval.trans (by decide), fun h ↦ absurd (hiff.mp (h.trans hone)) (by decide)⟩
  · obtain ⟨hevaluates, hspec⟩ :=
      split_pack_truncates (c := repackedBits) (by decide) [1, 1, 0, 1]
    obtain ⟨w, hw⟩ := (hevaluates
      (.inr ⟨[1, 2, 3], 4, [5, 6, 7], [], [], by decide, rfl⟩)).mpr (by decide)
    obtain ⟨-, hinputs, -, hpack⟩ := hspec w hw
    have hins : [1, 2, 3].map w.wire = [1, 0, 1] := (List.cons.inj hinputs).2
    have hbits : ∀ b ∈ [1, 2, 3], w.wire b = 0 ∨ w.wire b = 1 := by
      rw [← List.forall_mem_map (f := w.wire) (P := fun a ↦ a = 0 ∨ a = 1), hins]
      decide
    exact ⟨w, hw, (hpack [1, 2, 3] 4 [5, 6, 7] ⟨[], by decide⟩ ⟨[], by decide⟩ rfl (by decide)
      hbits).trans hins⟩

end Circuit

end Quadratize
