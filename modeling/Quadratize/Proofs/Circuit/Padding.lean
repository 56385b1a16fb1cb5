import Quadratize.Circuit.Padding
import Quadratize.Proofs.Circuit.Refines

/-!
# Padding

Every step of padding replaces one gate by several that refine it: a product with the constant one
copies its operand, and a doubling and an addition take one bit off a pack.
-/

namespace Quadratize.Circuit

open Gate

variable {one v w z : Wire} {next : Nat} {g : Gate}

theorem takeFresh_eq_ok {n : Nat} (h : takeFresh next = .ok (v, n)) :
    v.id = next ∧ n = next + 1 := by
  unfold takeFresh Wire.ofNat? at h
  split_ifs at h with hlt
  obtain ⟨rfl, rfl⟩ := Prod.mk.inj (Except.ok.inj h)
  exact ⟨rfl, rfl⟩

theorem copyGate_wellFormed (one source target : Wire) (note : String) :
    (copyGate one source target note).WellFormed :=
  ⟨.mul source one target _, nofun⟩

/-- A copy of a value at a new wire. -/
theorem holds_copyGate {q : Wire → Scalar} {source target : Wire} (note : String)
    (hone : q one = 1) : (copyGate one source target note).Holds q ↔ q target = q source := by
  change q target = q source * q one ↔ _
  rw [hone, mul_one]

theorem ascends_copyGate {ρ : Wire → ℚ} {source target : Wire} {note : String} :
    (copyGate one source target note).Ascends ρ ↔ ρ source < ρ target ∧ ρ one < ρ target := by
  simp [Ascends, copyGate]

/-! ## Inputs of splits and zero tests -/

theorem internalRead?_eq_some {inputs : List Wire} (hg : g.Shaped)
    (h : internalRead? inputs g = some w) : (g.op = .split ∨ g.op = .zerop) ∧ g.ins = [w] := by
  cases hg with
  | split x b bs note =>
    have hfilter : (some x).filter (· ∉ inputs) = some w := h
    obtain ⟨hx, -⟩ := Option.filter_eq_some_iff.mp hfilter
    exact ⟨.inl rfl, congrArg ([·]) (Option.some.inj hx)⟩
  | zerop x m y note =>
    have hfilter : (some x).filter (· ∉ inputs) = some w := h
    obtain ⟨hx, -⟩ := Option.filter_eq_some_iff.mp hfilter
    exact ⟨.inr rfl, congrArg ([·]) (Option.some.inj hx)⟩
  | _ => cases h

theorem rewires_reader (hins : g.ins = [w]) (hbelow : g.Below v.id) (hone : one.id < v.id)
    (note : String) :
    Rewires one v.id [g] [{ g with ins := v :: g.ins.tail }, copyGate one w v note] where
  rank := by
    intro ρ hρ
    have hg := hρ g List.mem_cons_self
    obtain ⟨x, hx, hlow, hhigh⟩ := hg.exists_between
    have hag := agreeBelow_update ρ v x
    have hv := Function.update_self v x ρ
    generalize Function.update ρ v x = σ at hag hv
    have hg' := hag.ascendsFrom hone hg hbelow
    have hout : ∀ z ∈ g.outs, σ v < σ z := fun z hz ↦ by
      rw [hv, hag z (hbelow z (List.mem_append_right _ hz))]
      exact hhigh z hz
    refine ⟨σ, hag, List.forall_mem_cons.mpr ⟨⟨hg'.1, ?_⟩, List.forall_mem_singleton.mpr ?_⟩⟩
    · simpa [Ascends, hins] using hout
    · rw [ascendsFrom_iff rfl, ascends_copyGate, hv, hag one hone,
        hag w (hbelow w (by simp [hins]))]
      exact ⟨hx, hlow w (by simp [hins]), hx⟩
  unrank := by
    intro ρ hρ
    obtain ⟨hreader, hcopy⟩ := List.forall_mem_cons.mp hρ
    obtain ⟨hwv, -⟩ := ascends_copyGate.mp (List.forall_mem_singleton.mp hcopy)
    refine List.forall_mem_singleton.mpr fun u hu z hz ↦ ?_
    obtain rfl : u = w := by simpa [hins] using hu
    exact hwv.trans (hreader v List.mem_cons_self z hz)
  reads := by simp [copyGate, hins]
  used := by simp [copyGate]

/-- A split or a zero test holds exactly where it holds of a wire with the same value. -/
theorem holds_reader_iff {q : Wire → Scalar} (hg : g.WellFormed)
    (hop : g.op = .split ∨ g.op = .zerop) (hins : g.ins = [w]) (hv : q v = q w) :
    ({ g with ins := v :: g.ins.tail } : Gate).Holds q ↔ g.Holds q := by
  obtain ⟨op, ins, outs, note⟩ := g
  obtain rfl : ins = [w] := hins
  rcases hop with rfl | rfl
  · simp only [Holds, List.tail_cons, hv]
  · cases hg.shaped with
    | zerop x m y note => simp only [Holds, List.tail_cons, hv]

theorem reflects_reader (hg : g.WellFormed) (hop : g.op = .split ∨ g.op = .zerop)
    (hins : g.ins = [w]) (note : String) :
    Reflects one [g] [{ g with ins := v :: g.ins.tail }, copyGate one w v note] where
  holds := by
    intro q hone hq
    obtain ⟨hreader, hcopy⟩ := List.forall_mem_cons.mp hq
    have hv := (holds_copyGate note hone).mp (List.forall_mem_singleton.mp hcopy)
    exact List.forall_mem_singleton.mpr ((holds_reader_iff hg hop hins hv).mp hreader)
  unique := by
    intro q q' hone hone' hagree hq hq'
    have hagree := List.forall_mem_singleton.mp hagree
    obtain ⟨-, hcopy⟩ := List.forall_mem_cons.mp hq
    obtain ⟨-, hcopy'⟩ := List.forall_mem_cons.mp hq'
    have hv := (holds_copyGate note hone).mp (List.forall_mem_singleton.mp hcopy)
    have hv' := (holds_copyGate note hone').mp (List.forall_mem_singleton.mp hcopy')
    refine List.forall_mem_cons.mpr ⟨fun z hz ↦ ?_, List.forall_mem_singleton.mpr fun z hz ↦ ?_⟩
    · exact hagree z (List.mem_append_right _ hz)
    · obtain rfl := List.mem_singleton.mp hz
      rw [hv, hv']
      exact hagree w (by simp [hins])

/-- A split or a zero test may read a copy of its input. -/
theorem refines_reader {inputs : List Wire} (hg : g.WellFormed) (hbelow : g.Below v.id)
    (hone : one.id < v.id) (h : internalRead? inputs g = some w) (note : String) :
    Refines one v.id (v.id + 1) [g]
      [{ g with ins := v :: g.ins.tail }, copyGate one w v note] := by
  obtain ⟨hop, hins⟩ := internalRead?_eq_some hg.shaped h
  have hw : w.id < v.id := hbelow w (by simp [hins])
  have hgate : ({ g with ins := v :: g.ins.tail } : Gate).WellFormed := by
    obtain ⟨op, ins, outs, gnote⟩ := g
    obtain rfl : ins = [w] := hins
    rcases hop with rfl | rfl
    · cases hg.shaped with
      | split x b bs note => exact ⟨.split v b bs _, nofun⟩
    · cases hg.shaped with
      | zerop x m y note => exact ⟨.zerop v m y _, nofun⟩
  refine ⟨Nat.le_succ _, ?_, ⟨[v], ?_, List.nodup_singleton v, ?_⟩, ?_, fun r hr hold ↦ ?_,
    reflects_reader hg hop hins note, rewires_reader hins hbelow hone note⟩
  · exact List.forall_mem_cons.mpr
      ⟨hgate, List.forall_mem_singleton.mpr (copyGate_wellFormed _ _ _ _)⟩
  · simp [copyGate]
  · simp
  · simp [hins, copyGate]
  · have hag := agreeBelow_update r v (r w)
    have hq : Function.update r v (r w) v = Function.update r v (r w) w := by
      rw [Function.update_self, hag w hw]
    have hg' := (hag.holds_iff hg hbelow).mpr (hold g List.mem_cons_self)
    refine ⟨_, hag, List.forall_mem_cons.mpr
      ⟨?_, List.forall_mem_singleton.mpr ((holds_copyGate _ ?_).mpr hq)⟩⟩
    · exact (holds_reader_iff hg hop hins hq).mpr hg'
    · rw [hag one hone, hr]

theorem padReaders_refines {inputs : List Wire} {gates : List Gate} {p : Padded}
    (hgates : ∀ g ∈ gates, g.WellFormed ∧ g.Below next) (hone : one.id < next)
    (h : padReaders one inputs next gates = .ok p) :
    Refines one next p.next gates (p.gates ++ p.added) := by
  induction gates generalizing next p with
  | nil =>
    obtain rfl := Except.ok.inj h
    exact .refl nofun
  | cons g rest ih =>
    obtain ⟨⟨hg, hbelow⟩, hrest⟩ := List.forall_mem_cons.mp hgates
    unfold padReaders at h
    split at h
    · obtain ⟨p, hp, h⟩ := bind_eq_ok.mp h
      obtain rfl := Except.ok.inj h
      have hstep : Refines one next next [g] [g] := .refl (by simpa using hg)
      exact hstep.append (ih hrest hone hp) hone (by simpa using hbelow) hrest
    · rename_i w hw
      obtain ⟨⟨v, n⟩, hv, h⟩ := bind_eq_ok.mp h
      obtain ⟨rfl, rfl⟩ := takeFresh_eq_ok hv
      obtain ⟨p, hp, h⟩ := bind_eq_ok.mp h
      obtain rfl := Except.ok.inj h
      have hrest' : ∀ g ∈ rest, g.WellFormed ∧ g.Below (v.id + 1) := fun g hg ↦
        ⟨(hrest g hg).1, (hrest g hg).2.mono (Nat.le_succ _)⟩
      have hstep := (refines_reader hg hbelow hone hw ("QuadGate before " ++ g.op.name)).append
        (ih hrest' (Nat.lt_succ_of_lt hone) hp) hone (by simpa using hbelow) hrest
      exact hstep.of_perm (by simp)

/-! ## Packs -/

theorem bitSum_append_singleton (bs : List Scalar) (b : Scalar) :
    Scalar.bitSum (bs ++ [b]) = Scalar.bitSum bs + Scalar.twoPow bs.length * b := by
  simp [Scalar.bitSum, List.zipIdx_append]

/-- The two highest bits can be merged into one. -/
theorem bitSum_merge (bs : List Scalar) (b a : Scalar) :
    Scalar.bitSum (bs ++ [b, a]) = Scalar.bitSum (bs ++ [b + 2 * a]) := by
  rw [← List.singleton_append, ← List.append_assoc, bitSum_append_singleton,
    bitSum_append_singleton, bitSum_append_singleton, List.length_append, List.length_singleton,
    Scalar.twoPow_succ]
  ring

/-- The pack that a chain has still to do, the bits from the highest on. -/
def packRest (output : Wire) (bits : List Wire) (note : List Char) : Gate :=
  ⟨.pack, bits.reverse, [output], note⟩

theorem holds_packRest {q : Wire → Scalar} {output : Wire} {bits note} :
    (packRest output bits note).Holds q ↔ q output = Scalar.bitSum (bits.reverse.map q) :=
  Iff.rfl

theorem packRest_wellFormed (output b : Wire) (bs : List Wire) (note : List Char) :
    (packRest output (b :: bs) note).WellFormed := by
  refine ⟨?_, nofun⟩
  obtain ⟨c, cs, hcs⟩ :=
    List.exists_cons_of_ne_nil (List.reverse_ne_nil_iff.mpr (List.cons_ne_nil b bs))
  rw [packRest, hcs]
  exact .pack c cs output note

/-- A doubling of the highest bit at a new wire. -/
def doubleGate (acc doubled : Wire) : Gate :=
  ⟨.constMul (Scalar.twoPow 1), [acc], [doubled], packNote⟩

/-- The addition of the next bit. -/
def bitGate (bit doubled sum : Wire) : Gate :=
  ⟨.add, [bit, doubled], [sum], packNote⟩

theorem packChain_cons (output acc bit : Wire) (lower : List Wire) (next : Nat) :
    packChain output next acc (bit :: lower) = takeFresh next >>= fun x ↦
      (if lower.isEmpty then .ok (output, x.2) else takeFresh x.2) >>= fun y ↦
        packChain output y.2 y.1 lower >>= fun z ↦
          .ok (doubleGate acc x.1 :: bitGate bit x.1 y.1 :: z.1, z.2) := by
  refine bind_congr fun x ↦ ?_
  dsimp only
  split_ifs <;> rfl

theorem holds_doubleGate {q : Wire → Scalar} {acc doubled : Wire} :
    (doubleGate acc doubled).Holds q ↔ q doubled = 2 * q acc := by
  change q doubled = Scalar.twoPow 1 * q acc ↔ _
  rw [Scalar.twoPow_succ, Scalar.twoPow_zero, mul_one]

theorem holds_bitGate {q : Wire → Scalar} {bit doubled sum : Wire} :
    (bitGate bit doubled sum).Holds q ↔ q sum = q bit + q doubled :=
  Iff.rfl

theorem id_lt_of_packRest {output : Wire} {bits : List Wire} {note : List Char}
    (h : (packRest output bits note).Below next) : output.id < next ∧ ∀ u ∈ bits, u.id < next :=
  ⟨h output (by simp [packRest]), fun u hu ↦ h u (by simp [packRest, hu])⟩

theorem ascends_packRest {ρ : Wire → ℚ} {output : Wire} {bits : List Wire} {note : List Char} :
    (packRest output bits note).Ascends ρ ↔ ∀ u ∈ bits, ρ u < ρ output := by
  simp [Ascends, packRest]

theorem ascends_doubleGate {ρ : Wire → ℚ} {acc doubled : Wire} :
    (doubleGate acc doubled).Ascends ρ ↔ ρ acc < ρ doubled := by
  simp [Ascends, doubleGate]

theorem ascends_bitGate {ρ : Wire → ℚ} {bit doubled sum : Wire} :
    (bitGate bit doubled sum).Ascends ρ ↔ ρ bit < ρ sum ∧ ρ doubled < ρ sum := by
  simp [Ascends, bitGate]

theorem chainGates_wellFormed (acc bit doubled sum : Wire) :
    ∀ g ∈ [doubleGate acc doubled, bitGate bit doubled sum], g.WellFormed :=
  List.forall_mem_cons.mpr ⟨⟨.constMul _ _ _ _, nofun⟩,
    List.forall_mem_singleton.mpr ⟨.add _ _ _ _, nofun⟩⟩

theorem rewires_packStep {output acc bit doubled sum : Wire} {lower : List Wire} {note : List Char}
    (hdoubled : doubled.id = next) (hsum : sum.id = next + 1) (hone : one.id < next)
    (hbelow : (packRest output (acc :: bit :: lower) note).Below next) :
    Rewires one next [packRest output (acc :: bit :: lower) note]
      ([doubleGate acc doubled, bitGate bit doubled sum] ++
        [packRest output (sum :: lower) note]) where
  rank := by
    intro ρ hρ
    have hg := hρ _ List.mem_cons_self
    -- The doubled bit ranks above the bits, and the merged bit between it and the output.
    obtain ⟨x, hx, hlow, hhigh⟩ := hg.exists_between
    obtain ⟨y, hxy, hy⟩ := exists_between (hhigh output (List.mem_singleton_self _))
    obtain ⟨σ, hag, hd, hs⟩ := exists_agreeBelow hdoubled hsum ρ x y
    obtain ⟨houtput, hids⟩ := id_lt_of_packRest hbelow
    have hone' : σ one < σ doubled := by rwa [hd, hag one hone]
    have hds : σ doubled < σ sum := by rwa [hd, hs]
    have hso : σ sum < σ output := by rwa [hs, hag output houtput]
    have hbits : ∀ u ∈ acc :: bit :: lower, σ u < σ doubled := fun u hu ↦ by
      rw [hd, hag u (hids u hu)]
      exact hlow u (by simpa [packRest, or_comm, or_assoc] using hu)
    refine ⟨σ, hag, List.forall_mem_cons.mpr ⟨?_, List.forall_mem_cons.mpr
      ⟨?_, List.forall_mem_singleton.mpr ?_⟩⟩⟩
    · exact (ascendsFrom_iff rfl).mpr ⟨hone', ascends_doubleGate.mpr (hbits acc (by simp))⟩
    · refine (ascendsFrom_iff rfl).mpr ⟨hone'.trans hds, ascends_bitGate.mpr ⟨?_, hds⟩⟩
      exact (hbits bit (by simp)).trans hds
    · refine (ascendsFrom_iff rfl).mpr ⟨(hone'.trans hds).trans hso, ascends_packRest.mpr ?_⟩
      refine List.forall_mem_cons.mpr ⟨hso, fun u hu ↦ ?_⟩
      exact ((hbits u (by simp [hu])).trans hds).trans hso
  unrank := by
    intro ρ hρ
    simp only [List.cons_append, List.nil_append, List.forall_mem_cons, ascends_doubleGate,
      ascends_bitGate, ascends_packRest] at hρ ⊢
    obtain ⟨hacc, ⟨hbit, hdouble⟩, ⟨hsum, hlower⟩, -⟩ := hρ
    exact ⟨⟨(hacc.trans hdouble).trans hsum, hbit.trans hsum, hlower⟩, nofun⟩
  reads := by
    intro u hu
    have hu : u ∈ lower ∨ u = bit ∨ u = acc := by simpa [packRest] using hu
    rcases hu with hu | rfl | rfl
    · simp [packRest, hu]
    · simp [bitGate]
    · simp [doubleGate]
  used := by simp [doubleGate, bitGate, packRest]

theorem reflects_packStep {output acc bit doubled sum : Wire} {lower : List Wire}
    {note : List Char} : Reflects one [packRest output (acc :: bit :: lower) note]
      ([doubleGate acc doubled, bitGate bit doubled sum] ++
        [packRest output (sum :: lower) note]) where
  holds := by
    intro q _ hq
    simp only [List.cons_append, List.nil_append, List.forall_mem_cons, holds_doubleGate,
      holds_bitGate, holds_packRest] at hq
    obtain ⟨hdouble, hsum, houtput, -⟩ := hq
    refine List.forall_mem_singleton.mpr (holds_packRest.mpr ?_)
    rw [houtput]
    simp only [List.reverse_cons, List.map_append, List.append_assoc, List.singleton_append,
      List.map_cons, List.map_nil, hsum, hdouble]
    exact (bitSum_merge _ _ _).symm
  unique := by
    intro q q' _ _ hagree hq hq'
    have hagree := List.forall_mem_singleton.mp hagree
    have hacc : q acc = q' acc := hagree acc (by simp [packRest])
    have hbit : q bit = q' bit := hagree bit (by simp [packRest])
    have houtput : q output = q' output := hagree output (by simp [packRest])
    simp only [List.cons_append, List.nil_append, List.forall_mem_cons, holds_doubleGate,
      holds_bitGate] at hq hq' ⊢
    have hdouble : q doubled = q' doubled := by rw [hq.1, hq'.1, hacc]
    have hsum : q sum = q' sum := by rw [hq.2.1, hq'.2.1, hbit, hdouble]
    exact ⟨List.forall_mem_singleton.mpr hdouble, List.forall_mem_singleton.mpr hsum,
      List.forall_mem_singleton.mpr houtput, nofun⟩

/-- Doubling the highest bit and adding the next one merges the two. -/
theorem refines_packStep {output acc bit doubled sum : Wire} {lower : List Wire} {note : List Char}
    (hdoubled : doubled.id = next) (hsum : sum.id = next + 1) (hone : one.id < next)
    (hbelow : (packRest output (acc :: bit :: lower) note).Below next) :
    Refines one next (next + 2) [packRest output (acc :: bit :: lower) note]
      ([doubleGate acc doubled, bitGate bit doubled sum] ++
        [packRest output (sum :: lower) note]) := by
  obtain ⟨houtput, hids⟩ := id_lt_of_packRest hbelow
  simp only [List.forall_mem_cons] at hids
  obtain ⟨hacc, hbit, hlower⟩ := hids
  have hne : doubled ≠ sum := fun he ↦ by rw [he] at hdoubled; omega
  refine ⟨Nat.le_add_right _ _, ?_, ⟨[doubled, sum], ?_, by simpa using hne, ?_⟩, ?_,
    fun r hr hold ↦ ?_, reflects_packStep, rewires_packStep hdoubled hsum hone hbelow⟩
  · intro g hg
    rcases List.mem_append.mp hg with hg | hg
    · exact chainGates_wellFormed _ _ _ _ g hg
    · exact List.mem_singleton.mp hg ▸ packRest_wellFormed _ _ _ _
  · have hperm : ([doubled, sum] ++ [output]).Perm ([output] ++ [doubled, sum]) :=
      List.perm_append_comm
    simpa [doubleGate, bitGate, packRest] using hperm
  · simp [hdoubled, hsum]
  · have hmem : ∀ w ∈ lower, w = one ∨ (w ∈ lower ∨ w = bit ∨ w = acc) ∨
        w = doubled ∨ w = sum ∨ w = output := fun w hw ↦ .inr (.inl (.inl hw))
    simpa [doubleGate, bitGate, packRest, or_imp, forall_and] using hmem
  · -- The new wires carry twice the highest bit and the merged bit.
    obtain ⟨q, hag, hqd, hqs⟩ :=
      exists_agreeBelow hdoubled hsum r (2 * r acc) (r bit + 2 * r acc)
    have hpack := holds_packRest.mp (hold _ List.mem_cons_self)
    refine ⟨q, hag, ?_⟩
    simp only [List.cons_append, List.nil_append, List.forall_mem_cons, holds_doubleGate,
      holds_bitGate, holds_packRest]
    refine ⟨?_, ?_, ?_, nofun⟩
    · rw [hqd, hag acc hacc]
    · rw [hqs, hqd, hag bit hbit]
    · have hmap : lower.reverse.map q = lower.reverse.map r :=
        List.map_congr_left fun w hw ↦ hag w (hlower w (List.mem_reverse.mp hw))
      rw [hag output houtput, hpack]
      simp only [List.reverse_cons, List.map_append, List.append_assoc, List.singleton_append,
        List.map_cons, List.map_nil, hmap, hqs]
      exact bitSum_merge _ _ _

theorem rewires_packLast {output acc bit doubled : Wire} {note : List Char}
    (hone : one.id < doubled.id) (hbelow : (packRest output [acc, bit] note).Below doubled.id) :
    Rewires one doubled.id [packRest output [acc, bit] note]
      [doubleGate acc doubled, bitGate bit doubled output] where
  rank := by
    intro ρ hρ
    have hg := hρ _ List.mem_cons_self
    obtain ⟨x, hx, hlow, hhigh⟩ := hg.exists_between
    have hag := agreeBelow_update ρ doubled x
    have hd := Function.update_self doubled x ρ
    generalize Function.update ρ doubled x = σ at hag hd
    obtain ⟨houtput, hids⟩ := id_lt_of_packRest hbelow
    have hone' : σ one < σ doubled := by rwa [hd, hag one hone]
    have hout : σ doubled < σ output := by
      rw [hd, hag output houtput]
      exact hhigh output (List.mem_singleton_self _)
    have hbits : ∀ u ∈ [acc, bit], σ u < σ doubled := fun u hu ↦ by
      rw [hd, hag u (hids u hu)]
      exact hlow u (by simpa [packRest, or_comm] using hu)
    refine ⟨σ, hag, List.forall_mem_cons.mpr ⟨?_, List.forall_mem_singleton.mpr ?_⟩⟩
    · exact (ascendsFrom_iff rfl).mpr ⟨hone', ascends_doubleGate.mpr (hbits acc (by simp))⟩
    · refine (ascendsFrom_iff rfl).mpr ⟨hone'.trans hout, ascends_bitGate.mpr ⟨?_, hout⟩⟩
      exact (hbits bit (by simp)).trans hout
  unrank := by
    intro ρ hρ
    simp only [List.forall_mem_cons, ascends_doubleGate, ascends_bitGate, ascends_packRest] at hρ ⊢
    obtain ⟨hacc, ⟨hbit, hdouble⟩, -⟩ := hρ
    exact ⟨⟨hacc.trans hdouble, hbit, nofun⟩, nofun⟩
  reads := by simp [doubleGate, bitGate, packRest]
  used := by simp [doubleGate, bitGate, packRest]

theorem reflects_packLast {output acc bit doubled : Wire} {note : List Char} :
    Reflects one [packRest output [acc, bit] note]
      [doubleGate acc doubled, bitGate bit doubled output] where
  holds := by
    intro q _ hq
    simp only [List.forall_mem_cons, holds_doubleGate, holds_bitGate] at hq
    obtain ⟨hdouble, houtput, -⟩ := hq
    refine List.forall_mem_singleton.mpr (holds_packRest.mpr ?_)
    rw [houtput, hdouble]
    exact ((bitSum_merge [] _ _).trans (by simp [Scalar.bitSum])).symm
  unique := by
    intro q q' _ _ hagree hq hq'
    have hagree := List.forall_mem_singleton.mp hagree
    have hacc : q acc = q' acc := hagree acc (by simp [packRest])
    have houtput : q output = q' output := hagree output (by simp [packRest])
    simp only [List.forall_mem_cons, holds_doubleGate] at hq hq' ⊢
    have hdouble : q doubled = q' doubled := by rw [hq.1, hq'.1, hacc]
    exact ⟨List.forall_mem_singleton.mpr hdouble, List.forall_mem_singleton.mpr houtput,
      List.forall_mem_nil _⟩

/-- The last step drives the output of the pack itself. -/
theorem refines_packLast {output acc bit doubled : Wire} {note : List Char}
    (hone : one.id < doubled.id) (hbelow : (packRest output [acc, bit] note).Below doubled.id) :
    Refines one doubled.id (doubled.id + 1) [packRest output [acc, bit] note]
      [doubleGate acc doubled, bitGate bit doubled output] := by
  obtain ⟨houtput, hids⟩ := id_lt_of_packRest hbelow
  simp only [List.forall_mem_cons] at hids
  obtain ⟨hacc, hbit, -⟩ := hids
  refine ⟨Nat.le_succ _, chainGates_wellFormed _ _ _ _, ⟨[doubled], ?_, List.nodup_singleton _, ?_⟩,
    ?_, fun r hr hold ↦ ?_, reflects_packLast, rewires_packLast hone hbelow⟩
  · simpa [doubleGate, bitGate, packRest] using List.Perm.swap output doubled []
  · simp
  · simp [doubleGate, bitGate, packRest]
  · have hag := agreeBelow_update r doubled (2 * r acc)
    have hqd := Function.update_self doubled (2 * r acc) r
    have hpack := holds_packRest.mp (hold _ List.mem_cons_self)
    refine ⟨_, hag, ?_⟩
    simp only [List.forall_mem_cons, holds_doubleGate, holds_bitGate]
    refine ⟨?_, ?_, nofun⟩
    · rw [hqd, hag acc hacc]
    · rw [hqd, hag output houtput, hag bit hbit, hpack]
      exact (bitSum_merge [] _ _).trans (by simp [Scalar.bitSum])

/-- A chain of doublings and additions refines a pack of at least two bits. -/
theorem packChain_refines {output acc bit : Wire} {lower : List Wire} {note : List Char}
    {gates : List Gate} {last : Nat}
    (hbelow : (packRest output (acc :: bit :: lower) note).Below next) (hone : one.id < next)
    (h : packChain output next acc (bit :: lower) = .ok (gates, last)) :
    Refines one next last [packRest output (acc :: bit :: lower) note] gates := by
  induction lower generalizing next acc bit gates with
  | nil =>
    obtain ⟨⟨doubled, n⟩, hdoubled, h⟩ := bind_eq_ok.mp h
    obtain ⟨rfl, rfl⟩ := takeFresh_eq_ok hdoubled
    obtain ⟨⟨sum, n⟩, hsum, h⟩ := bind_eq_ok.mp h
    obtain ⟨rfl, rfl⟩ := Prod.mk.inj (Except.ok.inj hsum)
    obtain ⟨rfl, rfl⟩ := Prod.mk.inj (Except.ok.inj h)
    exact refines_packLast hone hbelow
  | cons low lower ih =>
    obtain ⟨⟨doubled, n⟩, hdoubled, h⟩ := bind_eq_ok.mp h
    obtain ⟨hid, rfl⟩ := takeFresh_eq_ok hdoubled
    obtain ⟨⟨sum, n⟩, hsum, h⟩ := bind_eq_ok.mp h
    obtain ⟨hid', rfl⟩ := takeFresh_eq_ok hsum
    obtain ⟨⟨rest, n⟩, hrest, h⟩ := bind_eq_ok.mp h
    obtain ⟨rfl, rfl⟩ := Prod.mk.inj (Except.ok.inj h)
    have hstep : Refines one next (next + 2) _ _ := refines_packStep hid hid' hone hbelow
    have hsteps := hstep.below hone (List.forall_mem_singleton.mpr hbelow)
    have htail := ih (hsteps _ (by simp)) (by omega) hrest
    have hkeep : Refines one (next + 2) (next + 2)
        [doubleGate acc doubled, bitGate bit doubled sum]
        [doubleGate acc doubled, bitGate bit doubled sum] :=
      .refl (chainGates_wellFormed _ _ _ _)
    refine hstep.trans (hkeep.append htail (by omega) (fun g hg ↦ ?_) ?_) hone
    · exact hsteps g (List.mem_append_left _ hg)
    · exact List.forall_mem_singleton.mpr ⟨packRest_wellFormed _ _ _ _, hsteps _ (by simp)⟩

/-- A pack is refined by the gates that replace it. -/
theorem packGates_refines {output : Wire} {bits : List Wire} {note : List Char}
    {gates : List Gate} {last : Nat} (hbits : bits ≠ [])
    (hbelow : (packRest output bits note).Below next) (hone : one.id < next)
    (h : packGates output next bits = .ok (gates, last)) :
    Refines one next last [packRest output bits note] gates := by
  match bits with
  | [] => exact absurd rfl hbits
  | [bit] =>
    obtain ⟨rfl, rfl⟩ := Prod.mk.inj (Except.ok.inj h)
    have hrewires : Rewires one next [packRest output [bit] note]
        [⟨.constMul 1, [bit], [output], packNote⟩] := by
      refine ⟨fun ρ hρ ↦ ⟨ρ, fun _ _ ↦ rfl, ?_⟩, fun ρ hρ ↦ ?_, ?_, ?_⟩
      · simpa [AscendsFrom, Ascends, packRest] using hρ
      · simpa [Ascends, packRest] using hρ
      · simp [packRest]
      · simp [packRest]
    -- A single bit is its own value.
    have hholds {r : Wire → Scalar} : (packRest output [bit] note).Holds r ↔
        (⟨.constMul 1, [bit], [output], packNote⟩ : Gate).Holds r := by
      rw [holds_packRest]
      change r output = Scalar.bitSum [r bit] ↔ r output = 1 * r bit
      rw [one_mul, show Scalar.bitSum [r bit] = r bit by simp [Scalar.bitSum]]
    have hreflects : Reflects one [packRest output [bit] note]
        [⟨.constMul 1, [bit], [output], packNote⟩] := by
      refine ⟨fun q _ hq ↦ ?_, fun q q' _ _ hagree _ _ ↦ ?_⟩
      · exact List.forall_mem_singleton.mpr (hholds.mpr (List.forall_mem_singleton.mp hq))
      · have houtput := List.forall_mem_singleton.mp hagree output (by simp [packRest])
        exact List.forall_mem_singleton.mpr (List.forall_mem_singleton.mpr houtput)
    refine ⟨Nat.le_refl _, ?_, ⟨[], ?_, .nil, List.forall_mem_nil _⟩, ?_,
      fun r _ hold ↦ ⟨r, fun _ _ ↦ rfl, ?_⟩, hreflects, hrewires⟩
    · exact List.forall_mem_singleton.mpr ⟨.constMul _ _ _ _, List.forall_mem_nil _⟩
    · simp [packRest]
    · simp [packRest]
    · exact List.forall_mem_singleton.mpr (hholds.mp (List.forall_mem_singleton.mp hold))
  | high :: bit :: lower => exact packChain_refines hbelow hone h

theorem packOutput?_eq_some (hg : g.Shaped) (h : packOutput? g = some z) :
    g = packRest z g.ins.reverse g.note ∧ g.ins ≠ [] := by
  cases hg with
  | pack b bs y note =>
    obtain rfl := Option.some.inj h
    exact ⟨by simp [packRest], List.cons_ne_nil b bs⟩
  | _ => cases h

theorem expandPacks_refines {gates : List Gate} {p : Padded}
    (hgates : ∀ g ∈ gates, g.WellFormed ∧ g.Below next) (hone : one.id < next)
    (h : expandPacks next gates = .ok p) : Refines one next p.next gates (p.gates ++ p.added) := by
  induction gates generalizing next p with
  | nil =>
    obtain rfl := Except.ok.inj h
    exact .refl nofun
  | cons g rest ih =>
    obtain ⟨⟨hg, hbelow⟩, hrest⟩ := List.forall_mem_cons.mp hgates
    unfold expandPacks at h
    split at h
    · obtain ⟨p, hp, h⟩ := bind_eq_ok.mp h
      obtain rfl := Except.ok.inj h
      have hstep : Refines one next next [g] [g] := .refl (List.forall_mem_singleton.mpr hg)
      exact hstep.append (ih hrest hone hp) hone (List.forall_mem_singleton.mpr hbelow) hrest
    · rename_i z hz
      obtain ⟨heq, hne⟩ := packOutput?_eq_some hg.shaped hz
      obtain ⟨⟨chain, n⟩, hchain, h⟩ := bind_eq_ok.mp h
      obtain ⟨p, hp, h⟩ := bind_eq_ok.mp h
      obtain rfl := Except.ok.inj h
      have hpack : Refines one next n [g] chain := by
        rw [heq] at hbelow ⊢
        exact packGates_refines (by simpa using hne) hbelow hone hchain
      have hrest' : ∀ g ∈ rest, g.WellFormed ∧ g.Below n := fun g hg ↦
        ⟨(hrest g hg).1, (hrest g hg).2.mono hpack.le⟩
      have hstep := hpack.append (ih hrest' (hone.trans_le hpack.le) hp) hone
        (List.forall_mem_singleton.mpr hbelow) hrest
      exact hstep.of_perm (List.perm_append_comm_assoc _ _ _)

/-! ## Declared outputs of linear gates -/

theorem linearOutput?_eq_some {outputs : List Wire} (hg : g.Shaped)
    (h : linearOutput? outputs g = some z) : g.op.isLinear = true ∧ g.outs = [z] := by
  unfold linearOutput? at h
  split_ifs at h with hlinear
  obtain ⟨u, hu⟩ := hg.outs_of_isLinear hlinear
  rw [hu, List.head?_cons] at h
  obtain rfl := Option.some.inj (Option.filter_eq_some_iff.mp h).1
  exact ⟨hlinear, hu⟩

theorem notMem_of_linearOutput? {outputs : List Wire} (hg : g.Shaped)
    (hlinear : g.op.isLinear = true) (h : linearOutput? outputs g = none) :
    ∀ w ∈ g.outs, w ∉ outputs := by
  obtain ⟨u, hu⟩ := hg.outs_of_isLinear hlinear
  rw [linearOutput?, if_pos hlinear, hu, List.head?_cons, Option.filter_eq_none_iff] at h
  rw [hu]
  exact List.forall_mem_singleton.mpr fun hmem ↦ h u rfl (decide_eq_true hmem)

theorem rewires_linearOutput (hbelow : g.Below v.id) (hone : one.id < v.id) (houts : g.outs = [z])
    (note : String) :
    Rewires one v.id [g] [{ g with outs := v :: g.outs.tail }, copyGate one v z note] where
  rank := by
    intro ρ hρ
    have hg := hρ g List.mem_cons_self
    obtain ⟨x, hx, hlow, hhigh⟩ := hg.exists_between
    have hag := agreeBelow_update ρ v x
    have hv := Function.update_self v x ρ
    generalize Function.update ρ v x = σ at hag hv
    have hz : x < ρ z := hhigh z (by simp [houts])
    refine ⟨σ, hag, List.forall_mem_cons.mpr ⟨?_, List.forall_mem_singleton.mpr ?_⟩⟩
    · refine (ascendsFrom_iff (congrArg (v :: ·) (by rw [houts, List.tail_cons]))).mpr
        ⟨by rwa [hv, hag one hone], fun u hu y hy ↦ ?_⟩
      obtain rfl : y = v := by simpa [houts] using hy
      rw [hv, hag u (hbelow u (List.mem_append_left _ hu))]
      exact hlow u hu
    · rw [ascendsFrom_iff rfl, ascends_copyGate, hv, hag one hone,
        hag z (hbelow z (by simp [houts]))]
      exact ⟨hx.trans hz, hz, hx.trans hz⟩
  unrank := by
    intro ρ hρ
    obtain ⟨hlinear, hcopy⟩ := List.forall_mem_cons.mp hρ
    obtain ⟨hvz, -⟩ := ascends_copyGate.mp (List.forall_mem_singleton.mp hcopy)
    refine List.forall_mem_singleton.mpr fun u hu y hy ↦ ?_
    obtain rfl : y = z := by simpa [houts] using hy
    exact (hlinear u hu v List.mem_cons_self).trans hvz
  reads := by simp [copyGate]
  used := by simp [copyGate, houts]

/-- A linear gate holds exactly where it holds of another output with the same value. -/
theorem holds_linearOutput_iff {q : Wire → Scalar} (hg : g.WellFormed)
    (hlinear : g.op.isLinear = true) (houts : g.outs = [z]) (hv : q z = q v) :
    ({ g with outs := v :: g.outs.tail } : Gate).Holds q ↔ g.Holds q := by
  obtain ⟨op, ins, outs, note⟩ := g
  obtain rfl : outs = [z] := houts
  cases hg.shaped with
  | add x y u note => simp only [Holds, List.tail_cons, hv]
  | sub x y u note => simp only [Holds, List.tail_cons, hv]
  | constMul c x u note => simp only [Holds, List.tail_cons, hv]
  | _ => cases hlinear

theorem reflects_linearOutput (hg : g.WellFormed) (hlinear : g.op.isLinear = true)
    (houts : g.outs = [z]) (note : String) :
    Reflects one [g] [{ g with outs := v :: g.outs.tail }, copyGate one v z note] where
  holds := by
    intro q hone hq
    obtain ⟨hgate, hcopy⟩ := List.forall_mem_cons.mp hq
    have hz := (holds_copyGate note hone).mp (List.forall_mem_singleton.mp hcopy)
    exact List.forall_mem_singleton.mpr ((holds_linearOutput_iff hg hlinear houts hz).mp hgate)
  unique := by
    intro q q' hone hone' hagree hq hq'
    have hz : q z = q' z := List.forall_mem_singleton.mp hagree z (by simp [houts])
    obtain ⟨-, hcopy⟩ := List.forall_mem_cons.mp hq
    obtain ⟨-, hcopy'⟩ := List.forall_mem_cons.mp hq'
    have hv := (holds_copyGate note hone).mp (List.forall_mem_singleton.mp hcopy)
    have hv' := (holds_copyGate note hone').mp (List.forall_mem_singleton.mp hcopy')
    refine List.forall_mem_cons.mpr ⟨fun u hu ↦ ?_, List.forall_mem_singleton.mpr fun u hu ↦ ?_⟩
    · obtain rfl : u = v := by simpa [houts] using hu
      rw [← hv, hz, hv']
    · obtain rfl := List.mem_singleton.mp hu
      exact hz

/-- A linear gate may drive a new wire that is copied to its output. -/
theorem refines_linearOutput (hg : g.WellFormed) (hbelow : g.Below v.id) (hone : one.id < v.id)
    (hlinear : g.op.isLinear = true) (houts : g.outs = [z]) (note : String) :
    Refines one v.id (v.id + 1) [g]
      [{ g with outs := v :: g.outs.tail }, copyGate one v z note] := by
  have hrewires := rewires_linearOutput hbelow hone houts note
  have hreflects : Reflects one [g] [{ g with outs := v :: g.outs.tail }, copyGate one v z note] :=
    reflects_linearOutput hg hlinear houts note
  have hholds {q : Wire → Scalar} (hz : q z = q v) :=
    (holds_linearOutput_iff hg hlinear houts hz).mpr
  obtain ⟨op, ins, outs, gnote⟩ := g
  obtain rfl : outs = [z] := houts
  have hids : ∀ w ∈ ins ++ [z], w.id < v.id := hbelow
  refine ⟨Nat.le_succ _, ?_, ⟨[v], ?_, List.nodup_singleton v, ?_⟩, ?_, fun r hr hold ↦ ?_,
    hreflects, hrewires⟩
  · refine List.forall_mem_cons.mpr
      ⟨?_, List.forall_mem_singleton.mpr (copyGate_wellFormed _ _ _ _)⟩
    cases hg.shaped with
    | add x y u note => exact ⟨.add x y v _, nofun⟩
    | sub x y u note => exact ⟨.sub x y v _, nofun⟩
    | constMul c x u note => exact ⟨.constMul c x v _, nofun⟩
    | _ => cases hlinear
  · simpa [copyGate] using List.Perm.swap z v []
  · simp
  · have hmem : ∀ w ∈ ins, w = one ∨ w ∈ ins ∨ w = v ∨ w = z := fun w hw ↦ .inr (.inl hw)
    simpa [copyGate, or_imp, forall_and] using hmem
  · have hag := agreeBelow_update r v (r z)
    have hqv := Function.update_self v (r z) r
    generalize Function.update r v (r z) = q at hag hqv
    have hqz : q z = r z := hag z (hids z (by simp))
    have hg' := (hag.holds_iff hg hbelow).mpr (hold _ List.mem_cons_self)
    refine ⟨q, hag, List.forall_mem_cons.mpr
      ⟨?_, List.forall_mem_singleton.mpr ((holds_copyGate _ ?_).mpr (hqz.trans hqv.symm))⟩⟩
    · exact hholds (hqz.trans hqv.symm) hg'
    · rw [hag one hone, hr]

theorem padOutputs_refines {outputs : List Wire} {gates : List Gate} {p : Padded}
    (hgates : ∀ g ∈ gates, g.WellFormed ∧ g.Below next) (hone : one.id < next)
    (h : padOutputs one outputs next gates = .ok p) :
    Refines one next p.next gates (p.gates ++ p.added) := by
  induction gates generalizing next p with
  | nil =>
    obtain rfl := Except.ok.inj h
    exact .refl nofun
  | cons g rest ih =>
    obtain ⟨⟨hg, hbelow⟩, hrest⟩ := List.forall_mem_cons.mp hgates
    unfold padOutputs at h
    split at h
    · obtain ⟨p, hp, h⟩ := bind_eq_ok.mp h
      obtain rfl := Except.ok.inj h
      have hstep : Refines one next next [g] [g] := .refl (List.forall_mem_singleton.mpr hg)
      exact hstep.append (ih hrest hone hp) hone (List.forall_mem_singleton.mpr hbelow) hrest
    · rename_i z hz
      obtain ⟨hlinear, houts⟩ := linearOutput?_eq_some hg.shaped hz
      obtain ⟨⟨v, n⟩, hv, h⟩ := bind_eq_ok.mp h
      obtain ⟨rfl, rfl⟩ := takeFresh_eq_ok hv
      obtain ⟨p, hp, h⟩ := bind_eq_ok.mp h
      obtain rfl := Except.ok.inj h
      have hrest' : ∀ g ∈ rest, g.WellFormed ∧ g.Below (v.id + 1) := fun g hg ↦
        ⟨(hrest g hg).1, (hrest g hg).2.mono (Nat.le_succ _)⟩
      have hfirst := refines_linearOutput hg hbelow hone hlinear houts "QuadGate before output"
      have hstep := hfirst.append (ih hrest' (Nat.lt_succ_of_lt hone) hp) hone
        (List.forall_mem_singleton.mpr hbelow) hrest
      exact hstep.of_perm (by simp)

/-! ## Kinds of gates -/

theorem op_packChain {output acc : Wire} {bits : List Wire} {gates : List Gate} {last : Nat}
    (h : packChain output next acc bits = .ok (gates, last)) (hg : g ∈ gates) :
    g.op.isLinear = true := by
  induction bits generalizing next acc gates with
  | nil =>
    obtain ⟨rfl, -⟩ := Prod.mk.inj (Except.ok.inj h)
    cases hg
  | cons bit lower ih =>
    rw [packChain_cons] at h
    obtain ⟨⟨doubled, m⟩, -, h⟩ := bind_eq_ok.mp h
    obtain ⟨⟨sum, n⟩, -, h⟩ := bind_eq_ok.mp h
    obtain ⟨⟨rest, k⟩, hrest, h⟩ := bind_eq_ok.mp h
    obtain ⟨rfl, rfl⟩ := Prod.mk.inj (Except.ok.inj h)
    rcases List.mem_cons.mp hg with rfl | hg
    · rfl
    · rcases List.mem_cons.mp hg with rfl | hg
      · rfl
      · exact ih hrest hg

theorem op_packGates {output : Wire} {bits : List Wire} {gates : List Gate} {last : Nat}
    (h : packGates output next bits = .ok (gates, last)) (hg : g ∈ gates) :
    g.op.isLinear = true := by
  match bits with
  | [] =>
    obtain ⟨rfl, -⟩ := Prod.mk.inj (Except.ok.inj h)
    cases hg
  | [bit] =>
    obtain ⟨rfl, -⟩ := Prod.mk.inj (Except.ok.inj h)
    rw [List.mem_singleton.mp hg]
    rfl
  | high :: bit :: lower => exact op_packChain h hg

/-- Packs are replaced by linear gates. -/
theorem op_expandPacks {gates : List Gate} {p : Padded} (hgates : ∀ g ∈ gates, g.WellFormed)
    (h : expandPacks next gates = .ok p) :
    (∀ g ∈ p.gates, g.op ≠ .pack) ∧ ∀ g ∈ p.added, g.op.isLinear = true := by
  induction gates generalizing next p with
  | nil =>
    obtain rfl := Except.ok.inj h
    exact ⟨nofun, nofun⟩
  | cons g rest ih =>
    obtain ⟨hg, hrest⟩ := List.forall_mem_cons.mp hgates
    unfold expandPacks at h
    split at h
    · rename_i hnone
      obtain ⟨p, hp, h⟩ := bind_eq_ok.mp h
      obtain rfl := Except.ok.inj h
      refine ⟨List.forall_mem_cons.mpr ⟨?_, (ih hrest hp).1⟩, (ih hrest hp).2⟩
      cases hg.shaped with
      | pack b bs z note => cases hnone
      | _ => nofun
    · obtain ⟨⟨chain, n⟩, hchain, h⟩ := bind_eq_ok.mp h
      obtain ⟨p, hp, h⟩ := bind_eq_ok.mp h
      obtain rfl := Except.ok.inj h
      refine ⟨(ih hrest hp).1, fun a ha ↦ ?_⟩
      rcases List.mem_append.mp ha with ha | ha
      · exact op_packGates hchain ha
      · exact (ih hrest hp).2 a ha

theorem op_padReaders {inputs : List Wire} {gates : List Gate} {p : Padded}
    (h : padReaders one inputs next gates = .ok p) : ∀ g ∈ p.added, g.op = .mul := by
  induction gates generalizing next p with
  | nil =>
    obtain rfl := Except.ok.inj h
    exact nofun
  | cons g rest ih =>
    unfold padReaders at h
    split at h
    · obtain ⟨p, hp, h⟩ := bind_eq_ok.mp h
      obtain rfl := Except.ok.inj h
      exact ih (p := p) hp
    · obtain ⟨⟨v, n⟩, -, h⟩ := bind_eq_ok.mp h
      obtain ⟨p, hp, h⟩ := bind_eq_ok.mp h
      obtain rfl := Except.ok.inj h
      exact List.forall_mem_cons.mpr ⟨rfl, ih hp⟩

/-- A gate of the padded circuit is a product, or it is a gate from before, whose output may have
been replaced by a new wire; if it is linear then it drives no declared output. -/
theorem mem_padOutputs {outputs : List Wire} {gates : List Gate} {p : Padded}
    (hgates : ∀ g ∈ gates, g.WellFormed) (houtputs : ∀ w ∈ outputs, w.id < next)
    (h : padOutputs one outputs next gates = .ok p) :
    ∀ g ∈ p.gates ++ p.added, (g.op = .mul ∨ ∃ a ∈ gates, g.op = a.op) ∧
      (g.op.isLinear = true → ∀ w ∈ g.outs, w ∉ outputs) := by
  induction gates generalizing next p with
  | nil =>
    obtain rfl := Except.ok.inj h
    exact nofun
  | cons g rest ih =>
    obtain ⟨hg, hrest⟩ := List.forall_mem_cons.mp hgates
    have hmore {a : Gate} : (a.op = .mul ∨ ∃ b ∈ rest, a.op = b.op) →
        a.op = .mul ∨ ∃ b ∈ g :: rest, a.op = b.op :=
      Or.imp_right fun ⟨b, hb, he⟩ ↦ ⟨b, List.mem_cons_of_mem g hb, he⟩
    unfold padOutputs at h
    split at h
    · rename_i hnone
      obtain ⟨p, hp, h⟩ := bind_eq_ok.mp h
      obtain rfl := Except.ok.inj h
      intro a ha
      rcases List.mem_cons.mp ha with rfl | ha
      · refine ⟨.inr ⟨a, List.mem_cons_self, rfl⟩, fun hlinear ↦ ?_⟩
        exact notMem_of_linearOutput? hg.shaped hlinear hnone
      · exact (ih hrest houtputs hp a ha).imp_left hmore
    · rename_i z hz
      obtain ⟨hlinear, houts⟩ := linearOutput?_eq_some hg.shaped hz
      obtain ⟨⟨v, n⟩, hv, h⟩ := bind_eq_ok.mp h
      obtain ⟨rfl, rfl⟩ := takeFresh_eq_ok hv
      obtain ⟨p, hp, h⟩ := bind_eq_ok.mp h
      obtain rfl := Except.ok.inj h
      have hrec := ih hrest (fun w hw ↦ Nat.lt_succ_of_lt (houtputs w hw)) hp
      intro a ha
      rcases List.mem_append.mp ha with ha | ha
      · rcases List.mem_cons.mp ha with rfl | ha
        · refine ⟨.inr ⟨g, List.mem_cons_self, rfl⟩, fun _ w hw hmem ↦ ?_⟩
          rw [houts, List.tail_cons] at hw
          obtain rfl := List.mem_singleton.mp hw
          exact Nat.lt_irrefl _ (houtputs w hmem)
        · exact (hrec a (List.mem_append_left _ ha)).imp_left hmore
      · rcases List.mem_cons.mp ha with rfl | ha
        · exact ⟨.inl rfl, nofun⟩
        · exact (hrec a (List.mem_append_right _ ha)).imp_left hmore

/-! ## Running out of numbers -/

/-- The step fails only if there is no new wire left. -/
def Exhausts {α : Type} (x : Except Malformed α) : Prop :=
  ∀ e, x = .error e → e = .exhausted

theorem Exhausts.ok {α : Type} (a : α) : Exhausts (.ok a) :=
  nofun

theorem Exhausts.bind {α β : Type} {x : Except Malformed α} {f : α → Except Malformed β}
    (hx : Exhausts x) (hf : ∀ a, Exhausts (f a)) : Exhausts (x >>= f) := by
  intro e he
  rcases bind_eq_error.mp he with he | ⟨a, -, he⟩
  · exact hx e he
  · exact hf a e he

theorem exhausts_takeFresh (next : Nat) : Exhausts (takeFresh next) := by
  intro e he
  unfold takeFresh at he
  split at he
  · cases he
  · exact (Except.error.inj he).symm

theorem exhausts_padReaders (one : Wire) (inputs : List Wire) (next : Nat) (gates : List Gate) :
    Exhausts (padReaders one inputs next gates) := by
  induction gates generalizing next with
  | nil => exact .ok _
  | cons g rest ih =>
    unfold padReaders
    split
    · exact (ih next).bind fun _ ↦ .ok _
    · exact (exhausts_takeFresh next).bind fun _ ↦ (ih _).bind fun _ ↦ .ok _

theorem exhausts_packChain (output : Wire) (next : Nat) (acc : Wire) (bits : List Wire) :
    Exhausts (packChain output next acc bits) := by
  induction bits generalizing next acc with
  | nil => exact .ok _
  | cons bit lower ih =>
    rw [packChain_cons]
    refine (exhausts_takeFresh next).bind fun _ ↦ Exhausts.bind ?_ fun _ ↦
      (ih _ _).bind fun _ ↦ .ok _
    split_ifs
    · exact .ok _
    · exact exhausts_takeFresh _

theorem exhausts_packGates (output : Wire) (next : Nat) (bits : List Wire) :
    Exhausts (packGates output next bits) := by
  match bits with
  | [] => exact .ok _
  | [bit] => exact .ok _
  | high :: bit :: lower => exact exhausts_packChain output next high (bit :: lower)

theorem exhausts_expandPacks (next : Nat) (gates : List Gate) :
    Exhausts (expandPacks next gates) := by
  induction gates generalizing next with
  | nil => exact .ok _
  | cons g rest ih =>
    unfold expandPacks
    split
    · exact (ih next).bind fun _ ↦ .ok _
    · exact (exhausts_packGates _ next _).bind fun _ ↦ (ih _).bind fun _ ↦ .ok _

theorem exhausts_padOutputs (one : Wire) (outputs : List Wire) (next : Nat) (gates : List Gate) :
    Exhausts (padOutputs one outputs next gates) := by
  induction gates generalizing next with
  | nil => exact .ok _
  | cons g rest ih =>
    unfold padOutputs
    split
    · exact (ih next).bind fun _ ↦ .ok _
    · exact (exhausts_takeFresh next).bind fun _ ↦ (ih _).bind fun _ ↦ .ok _

/-! ## The whole step -/

section

variable {c d : Circuit} {n : Nat}

theorem exhausts_insertPadding (hinputs : c.inputs ≠ []) : Exhausts c.insertPadding := by
  have hone : c.one? = some (c.inputs.head hinputs).wire := by
    rw [one?, inputWires, List.head?_map, List.head?_eq_some_head hinputs, Option.map_some]
  rw [insertPadding, hone]
  exact (exhausts_padReaders _ _ _ _).bind fun _ ↦ (exhausts_expandPacks _ _).bind fun _ ↦
    (exhausts_padOutputs _ _ _ _).bind fun _ ↦ .ok _

/-- The wires of a circuit lie below the new ones. -/
theorem id_lt_firstFresh (hw : w ∈ c.wires) : w.id < c.firstFresh :=
  (id_lt_idBound hw).trans_le (Nat.le_max_right _ _)

theorem below_firstFresh (hg : g ∈ c.gates) : g.Below c.firstFresh := by
  intro w hw
  exact id_lt_firstFresh (mem_wires_of_gate hg (List.mem_append.mp hw))

/-- The steps of padding: the readers, the packs and the declared outputs, one after the other. -/
structure PaddingSteps (c : Circuit) (one : Wire) (readers packs outs : Padded) : Prop where
  first : c.one? = some one
  padsReaders : padReaders one c.inputWires c.firstFresh c.gates = .ok readers
  expandsPacks : expandPacks readers.next readers.gates = .ok packs
  padsOutputs : padOutputs one c.outputs packs.next
    (packs.gates ++ readers.added ++ packs.added) = .ok outs

theorem insertPadding_steps (h : c.insertPadding = .ok (d, n)) :
    ∃ one readers packs outs, PaddingSteps c one readers packs outs ∧
      d = { c with gates := outs.gates ++ outs.added } ∧
      n = readers.added.length + packs.added.length + outs.added.length := by
  unfold insertPadding at h
  split at h
  · cases h
  · rename_i one hone
    obtain ⟨readers, hreaders, h⟩ := bind_eq_ok.mp h
    obtain ⟨packs, hpacks, h⟩ := bind_eq_ok.mp h
    obtain ⟨outs, houts, h⟩ := bind_eq_ok.mp h
    obtain ⟨rfl, rfl⟩ := Prod.mk.inj (Except.ok.inj h)
    exact ⟨one, readers, packs, outs, ⟨hone, hreaders, hpacks, houts⟩, rfl, rfl⟩

namespace PaddingSteps

variable {readers packs outs : Padded} (h : PaddingSteps c one readers packs outs)
include h

theorem one_lt : one.id < c.firstFresh :=
  id_lt_firstFresh (mem_wires_of_input (List.mem_of_head? h.first))

theorem refines_readers (hc : c.Valid) :
    Refines one c.firstFresh readers.next c.gates (readers.gates ++ readers.added) :=
  padReaders_refines (fun g hg ↦ ⟨hc.gates g hg, below_firstFresh hg⟩) h.one_lt h.padsReaders

theorem wellFormed_readers (hc : c.Valid) :
    ∀ g ∈ readers.gates ++ readers.added, g.WellFormed ∧ g.Below readers.next := by
  have hread := h.refines_readers hc
  have hbelow := hread.below h.one_lt fun g hg ↦ below_firstFresh hg
  exact fun g hg ↦ ⟨hread.wellFormed g hg, hbelow g hg⟩

/-- Before it turns to the declared outputs, padding has refined the gates. -/
theorem refines_inner (hc : c.Valid) : Refines one c.firstFresh packs.next c.gates
    (packs.gates ++ readers.added ++ packs.added) := by
  have hread := h.refines_readers hc
  obtain ⟨hgates, hadded⟩ := List.forall_mem_append.mp (h.wellFormed_readers hc)
  have hlt : one.id < readers.next := h.one_lt.trans_le hread.le
  -- The products in front of readers stand aside while packs are replaced.
  have hpack := (expandPacks_refines hgates hlt h.expandsPacks).append
    (.refl fun g hg ↦ (hadded g hg).1) hlt (fun g hg ↦ (hgates g hg).2) hadded
  refine (hread.trans hpack h.one_lt).of_perm ?_
  rw [List.append_assoc, List.append_assoc]
  exact List.perm_append_comm.append_left _

/-- Before it turns to the declared outputs, padding has replaced the packs. -/
theorem op_inner (hc : c.Valid) :
    ∀ g ∈ packs.gates ++ readers.added ++ packs.added, g.op ≠ .pack := by
  obtain ⟨hgates, -⟩ := List.forall_mem_append.mp (h.wellFormed_readers hc)
  obtain ⟨hnopack, hlinear⟩ := op_expandPacks (fun g hg ↦ (hgates g hg).1) h.expandsPacks
  intro g hg hpack
  rcases List.mem_append.mp hg with hg | hg
  · rcases List.mem_append.mp hg with hg | hg
    · exact hnopack g hg hpack
    · cases hpack.symm.trans (op_padReaders h.padsReaders g hg)
  · cases hpack ▸ hlinear g hg

end PaddingSteps

theorem insertPadding_refines (hc : c.Valid) (h : c.insertPadding = .ok (d, n)) :
    ∃ one last, c.one? = some one ∧ d.inputs = c.inputs ∧ d.outputs = c.outputs ∧
      Refines one c.firstFresh last c.gates d.gates := by
  obtain ⟨one, readers, packs, outs, hsteps, rfl, -⟩ := insertPadding_steps h
  refine ⟨one, outs.next, hsteps.first, rfl, rfl, ?_⟩
  have hlt := hsteps.one_lt
  have hinner := hsteps.refines_inner hc
  have hbelow := hinner.below hlt fun g hg ↦ below_firstFresh hg
  exact hinner.trans (padOutputs_refines (fun g hg ↦ ⟨hinner.wellFormed g hg, hbelow g hg⟩)
    (hlt.trans_le hinner.le) hsteps.padsOutputs) hlt

theorem inputWires_insertPadding (hc : c.Valid) (h : c.insertPadding = .ok (d, n)) :
    d.inputWires = c.inputWires := by
  obtain ⟨one, last, -, hinputs, -⟩ := insertPadding_refines hc h
  rw [inputWires, hinputs, inputWires]

theorem Valid.insertPadding (hc : c.Valid) (h : c.insertPadding = .ok (d, n)) : d.Valid := by
  obtain ⟨one, last, hone, -, houtputs, href⟩ := insertPadding_refines hc h
  have hins := inputWires_insertPadding hc h
  have hdriven {w : Wire} (hw : w ∈ c.driven) : w ∈ d.driven := by
    rw [driven, List.mem_append] at hw ⊢
    rw [hins]
    exact hw.imp_right href.mem_outs
  obtain ⟨fresh, hperm, hfreshNodup, hfresh⟩ := href.outs
  refine ⟨⟨href.wellFormed, ?_, fun w hw ↦ ?_⟩, fun g hg w hw ↦ ?_⟩
  · have hall : d.driven.Perm (c.driven ++ fresh) := by
      rw [driven, driven, hins, List.append_assoc]
      exact hperm.append_left _
    rw [hall.nodup_iff]
    refine List.nodup_append.mpr ⟨hc.nodup, hfreshNodup, fun v hv w hw he ↦ ?_⟩
    have hlt := id_lt_firstFresh (mem_wires_of_driven hv)
    have hle := (hfresh w hw).1
    rw [he] at hlt
    omega
  · exact hdriven (hc.outputs w (houtputs ▸ hw))
  · rcases href.ins g hg w hw with rfl | hw | hw
    · exact hdriven (mem_driven.mpr (.inl (List.mem_of_head? hone)))
    · obtain ⟨g₀, hg₀, hw⟩ := List.mem_flatMap.mp hw
      exact hdriven (hc.reads g₀ hg₀ w hw)
    · exact List.mem_append_right _ hw

/-- Padding neither opens nor closes a cycle. -/
theorem acyclic_insertPadding (hc : c.Valid) (h : c.insertPadding = .ok (d, n)) :
    d.Acyclic ↔ c.Acyclic := by
  obtain ⟨one, last, hone, -, -, href⟩ := insertPadding_refines hc h
  constructor
  · rintro ⟨ρ, hρ⟩
    exact ⟨ρ, href.rewires.unrank ρ hρ⟩
  · intro hacyclic
    have hinput : ∀ g ∈ c.gates, one ∉ g.outs := fun g hg hmem ↦
      (List.nodup_append.mp hc.nodup).2.2 one (List.mem_of_head? hone) one
        (List.mem_flatMap.mpr ⟨g, hg, hmem⟩) rfl
    obtain ⟨ρ, hρ⟩ := hacyclic.exists_ascendsFrom hinput
    obtain ⟨σ, -, hσ⟩ := href.rewires.rank ρ hρ
    exact ⟨σ, fun g hg ↦ (hσ g hg).2⟩

/-- Padding adds only gates that are needed. -/
theorem Live.insertPadding (hlive : c.Live) (hc : c.Valid) (h : c.insertPadding = .ok (d, n)) :
    d.Live := by
  obtain ⟨one, last, -, -, houtputs, href⟩ := insertPadding_refines hc h
  intro g hg
  rcases href.rewires.used g hg with ⟨w, hw, hread⟩ | ⟨a, ha, hga⟩
  · exact ⟨w, hw, .inr (List.mem_flatMap.mp hread)⟩
  · obtain ⟨w, hw, huse⟩ := hlive a ha
    refine ⟨w, hga ▸ hw, huse.imp (fun hout ↦ houtputs ▸ hout) fun ⟨b, hb, hwb⟩ ↦ ?_⟩
    exact List.mem_flatMap.mp (href.rewires.reads (List.mem_flatMap.mpr ⟨b, hb, hwb⟩))

/-- Padding keeps the values of the declared outputs if the first primary input is one. -/
theorem Relates.insertPadding {ins outs : List Scalar} (hrel : c.Relates ins outs) (hc : c.Valid)
    (hhead : ins.head? = some 1) (h : c.insertPadding = .ok (d, n)) : d.Relates ins outs := by
  obtain ⟨one, last, hone, -, houtputs, href⟩ := insertPadding_refines hc h
  obtain ⟨r, hr, rfl, rfl⟩ := hrel
  have hrone : r one = 1 := by
    rw [List.head?_map, show c.inputWires.head? = some one from hone] at hhead
    exact Option.some.inj hhead
  obtain ⟨q, hq, hd⟩ := href.extend r hrone hr
  refine ⟨q, hd, ?_, ?_⟩
  · rw [inputWires_insertPadding hc h]
    exact List.map_congr_left fun w hw ↦ hq w (id_lt_firstFresh (mem_wires_of_input hw))
  · rw [houtputs]
    exact List.map_congr_left fun w hw ↦ hq w (id_lt_firstFresh (mem_wires_of_output hw))

/-- After padding there are no packs, and no linear gate drives a declared output. -/
theorem op_insertPadding (hc : c.Valid) (h : c.insertPadding = .ok (d, n)) :
    (∀ g ∈ d.gates, g.op ≠ .pack) ∧ d.LinearInside := by
  obtain ⟨one, readers, packs, outs, hsteps, rfl, -⟩ := insertPadding_steps h
  have hinner := hsteps.refines_inner hc
  have houtputs : ∀ w ∈ c.outputs, w.id < packs.next := fun w hw ↦
    (id_lt_firstFresh (mem_wires_of_output hw)).trans_le hinner.le
  have hgates := mem_padOutputs hinner.wellFormed houtputs hsteps.padsOutputs
  refine ⟨fun g hg hpack ↦ ?_, fun g hg ↦ (hgates g hg).2⟩
  rcases (hgates g hg).1 with hop | ⟨a, ha, hop⟩
  · cases hpack.symm.trans hop
  · exact hsteps.op_inner hc a ha (hop.symm.trans hpack)

end

end Quadratize.Circuit
