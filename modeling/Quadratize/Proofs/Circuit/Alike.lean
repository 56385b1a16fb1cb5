import Mathlib.Data.Fintype.Sum
import Quadratize.Proofs.Circuit.DeadGates
import Quadratize.Proofs.Circuit.Inputs
import Quadratize.Proofs.Circuit.Numbering
import Quadratize.Proofs.Circuit.Padding

/-!
# Circuits that differ in the names of wires

Two circuits are alike if one is the other with its wires renamed apart.  There are finitely many
wires, so a renaming of the wires of a circuit is part of an injective renaming of all wires, and
passes can be compared under such renamings.  Passes before the first numbering keep circuits alike,
and the first numbering makes alike circuits equal.
-/

namespace Quadratize

namespace Wire

instance : Finite Wire :=
  Finite.of_injective (fun w : Wire ↦ (⟨w.id, w.isLt⟩ : Fin wireLimit)) fun _ _ h ↦
    ext (congrArg Fin.val h)

/-- Two ways to name some wires apart differ by a renaming that keeps all wires apart. -/
theorem exists_injective {S : Set Wire} {f g : Wire → Wire} (hf : Set.InjOn f S)
    (hg : Set.InjOn g S) : ∃ σ : Wire → Wire, Function.Injective σ ∧ ∀ w ∈ S, σ (f w) = g w := by
  have := Fintype.ofFinite Wire
  have hinv : Set.LeftInvOn (Function.invFunOn f S) f S := hf.leftInvOn_invFunOn
  have hinj : Set.InjOn (g ∘ Function.invFunOn f S) (f '' S) := by
    rintro _ ⟨v, hv, rfl⟩ _ ⟨w, hw, rfl⟩ he
    rw [Function.comp_apply, Function.comp_apply, hinv hv, hinv hw] at he
    rw [hg hv hw he]
  have hmaps : Set.MapsTo (g ∘ Function.invFunOn f S) (f '' S) (Finset.univ : Finset Wire) :=
    fun _ _ ↦ Finset.mem_univ _
  obtain ⟨e, he⟩ := hmaps.exists_equiv_extend_of_card_eq Finset.card_univ.symm hinj
  refine ⟨fun w ↦ e w, Subtype.val_injective.comp e.injective, fun w hw ↦ ?_⟩
  exact (he _ (Set.mem_image_of_mem f hw)).trans (congrArg g (hinv hw))

end Wire

namespace Circuit

variable {c d c' d' : Circuit} {σ : Wire → Wire}

/-- The second circuit is the first one with its wires renamed apart. -/
def Alike (c c' : Circuit) : Prop :=
  ∃ σ : Wire → Wire, Function.Injective σ ∧ c' = c.rename σ

theorem alike_rename_rename (hc : ∀ g ∈ c.gates, g.WellFormed) {f g : Wire → Wire}
    (hf : Set.InjOn f {w | w ∈ c.wires}) (hg : Set.InjOn g {w | w ∈ c.wires}) :
    (c.rename f).Alike (c.rename g) := by
  obtain ⟨σ, hσ, heq⟩ := Wire.exists_injective hf hg
  refine ⟨σ, hσ, ?_⟩
  rw [rename_rename]
  exact rename_congr hc fun w hw ↦ (heq w hw).symm

theorem alike_rename (hc : ∀ g ∈ c.gates, g.WellFormed) {f : Wire → Wire}
    (hf : Set.InjOn f {w | w ∈ c.wires}) : c.Alike (c.rename f) := by
  obtain ⟨σ, hσ, heq⟩ := Wire.exists_injective (Set.injOn_id _) hf
  exact ⟨σ, hσ, rename_congr hc fun w hw ↦ (heq w hw).symm⟩

/-! ## The constant input -/

theorem leadsWithOne_rename (f : Wire → Wire) (c : Circuit) :
    (c.rename f).leadsWithOne = c.leadsWithOne := by
  rw [leadsWithOne, leadsWithOne, rename, List.head?_map, Option.any_map]

/-- Whether the constant input moves depends on the notes only, and new names for the primary inputs
keep the wires apart. -/
theorem Alike.normalizeInputs {changed changed' : Bool} (hlike : c.Alike c')
    (hc : ∀ g ∈ c.gates, g.WellFormed) (h : c.normalizeInputs = .ok (d, changed))
    (h' : c'.normalizeInputs = .ok (d', changed')) : d.Alike d' := by
  obtain ⟨σ, hσ, rfl⟩ := hlike
  have hleads := leadsWithOne_rename σ c
  rcases normalizeInputs_cases h with ⟨hone, rfl⟩ | ⟨hone, f, hf, rfl⟩
  · rcases normalizeInputs_cases h' with ⟨-, rfl⟩ | ⟨hone', -⟩
    · exact ⟨σ, hσ, rfl⟩
    · rw [hleads, hone] at hone'
      cases hone'
  · rcases normalizeInputs_cases h' with ⟨hone', -⟩ | ⟨-, f', hf', rfl⟩
    · rw [hleads, hone] at hone'
      cases hone'
    · have hcomp : Set.InjOn (f' ∘ σ) {w | w ∈ c.wires} := by
        refine hf'.comp hσ.injOn fun w hw ↦ ?_
        exact mem_wires_rename.mpr ⟨w, hw, rfl⟩
      obtain ⟨τ, hτ, heq⟩ := alike_rename_rename hc hf hcomp
      refine ⟨τ, hτ, ?_⟩
      rw [rename_rename, heq]
      simp only [rename, map_lastToFront]

/-! ## Dead gates -/

theorem endUses_map (hσ : Function.Injective σ) (uses ws : List Wire) :
    endUses (uses.map σ) (ws.map σ) = (endUses uses ws).map σ := by
  rw [endUses, endUses, List.map_foldl_erase hσ, List.foldl_map]

theorem sweepDead_rename (hσ : Function.Injective σ) (uses : List Wire) (gates : List Gate) :
    sweepDead (uses.map σ) (gates.map (Gate.rename σ)) =
      ((sweepDead uses gates).1.map (Gate.rename σ), (sweepDead uses gates).2.map σ) := by
  induction gates with
  | nil => rfl
  | cons g rest ih =>
    have hused : (g.rename σ).outs.any (· ∈ (sweepDead uses rest).2.map σ) =
        g.outs.any (· ∈ (sweepDead uses rest).2) := by
      simp only [Gate.rename, List.any_map, Function.comp_def, List.mem_map_of_injective hσ]
    rw [List.map_cons, sweepDead, ih, sweepDead]
    dsimp only
    rw [hused]
    split_ifs
    · rfl
    · exact congrArg _ (endUses_map hσ _ g.ins)

theorem liveGates_rename (hσ : Function.Injective σ) (outputs : List Wire) (gates : List Gate) :
    (liveGates (outputs.map σ) (gates.map (Gate.rename σ))).1 =
      (liveGates outputs gates).1.map (Gate.rename σ) := by
  induction hn : gates.length using Nat.strongRecOn generalizing gates with
  | ind n ih =>
    have huses : allUses (outputs.map σ) (gates.map (Gate.rename σ)) =
        (allUses outputs gates).map σ := by
      simp [allUses, List.map_flatMap, List.flatMap_map, Gate.rename]
    rw [fst_liveGates, fst_liveGates outputs, huses, sweepDead_rename hσ, List.length_map,
      List.length_map]
    split_ifs with hlt
    · exact ih _ (hn ▸ hlt) _ rfl
    · rfl

theorem removeDeadGates_rename (hσ : Function.Injective σ) (c : Circuit) :
    (c.rename σ).removeDeadGates.1 = c.removeDeadGates.1.rename σ := by
  change Circuit.mk _ (liveGates (c.outputs.map σ) (c.gates.map (Gate.rename σ))).1 _ = _
  rw [liveGates_rename hσ]
  rfl

theorem Alike.removeDeadGates (h : c.Alike c') :
    c.removeDeadGates.1.Alike c'.removeDeadGates.1 := by
  obtain ⟨σ, hσ, rfl⟩ := h
  exact ⟨σ, hσ, removeDeadGates_rename hσ c⟩

/-! ## Padding -/

/-- If both steps succeed then their results are related. -/
def Agree {α β : Type} (R : α → β → Prop) (x : Except Malformed α)
    (y : Except Malformed β) : Prop :=
  ∀ a b, x = .ok a → y = .ok b → R a b

section

variable {α β α' β' : Type} {R : α → β → Prop} {S : α' → β' → Prop}

theorem Agree.ok {a : α} {b : β} (h : R a b) : Agree R (.ok a) (.ok b) := by
  rintro _ _ ⟨⟩ ⟨⟩
  exact h

theorem Agree.bind {x : Except Malformed α} {y : Except Malformed β} {f : α → Except Malformed α'}
    {g : β → Except Malformed β'} (h : Agree R x y) (hf : ∀ a b, R a b → Agree S (f a) (g b)) :
    Agree S (x >>= f) (y >>= g) := by
  intro a' b' ha' hb'
  obtain ⟨a, ha, ha'⟩ := bind_eq_ok.mp ha'
  obtain ⟨b, hb, hb'⟩ := bind_eq_ok.mp hb'
  exact hf a b (h a b ha hb) a' b' ha' hb'

end

/-- The wires from the number `n` on are renamed in order to those from the number `n'` on. -/
def Carries (σ : Wire → Wire) (n n' : Nat) : Prop :=
  ∀ v v' : Wire, n ≤ v.id → v'.id + n = v.id + n' → σ v = v'

variable {n n' : Nat}

/-- A result is renamed by `f`, and the new wires that are left are carried over. -/
def Follows {α : Type} (σ : Wire → Wire) (f : α → α) (x y : α × Nat) : Prop :=
  y.1 = f x.1 ∧ Carries σ x.2 y.2

theorem Carries.agree_takeFresh (h : Carries σ n n') :
    Agree (Follows σ σ) (takeFresh n) (takeFresh n') := by
  rintro ⟨v, m⟩ ⟨v', m'⟩ hv hv'
  obtain ⟨rfl, rfl⟩ := takeFresh_eq_ok hv
  obtain ⟨rfl, rfl⟩ := takeFresh_eq_ok hv'
  refine ⟨(h v v' (Nat.le_refl _) (Nat.add_comm _ _)).symm, fun u u' hu hu' ↦ ?_⟩
  exact h u u' (Nat.le_of_succ_le hu) (by omega)

/-- The second outcome is the first one with its wires renamed. -/
structure Padded.Renamed (σ : Wire → Wire) (p p' : Padded) : Prop where
  gates : p'.gates = p.gates.map (Gate.rename σ)
  added : p'.added = p.added.map (Gate.rename σ)
  next : Carries σ p.next p'.next

theorem filter_head?_map {P Q : Wire → Bool} (h : ∀ w, Q (σ w) = P w) (ws : List Wire) :
    (ws.map σ).head?.filter Q = (ws.head?.filter P).map σ := by
  cases ws with
  | nil => rfl
  | cons w ws =>
    simp only [List.map_cons, List.head?_cons, Option.filter_some, h]
    split_ifs <;> rfl

theorem internalRead?_rename (hσ : Function.Injective σ) (inputs : List Wire) (g : Gate) :
    internalRead? (inputs.map σ) (g.rename σ) = (internalRead? inputs g).map σ := by
  have hmem (w : Wire) : decide (σ w ∉ inputs.map σ) = decide (w ∉ inputs) :=
    decide_eq_decide.mpr (List.mem_map_of_injective hσ).not
  obtain ⟨op, ins, outs, note⟩ := g
  cases op with
  | split | zerop => exact filter_head?_map hmem ins
  | _ => rfl

theorem packOutput?_rename (σ : Wire → Wire) (g : Gate) :
    packOutput? (g.rename σ) = (packOutput? g).map σ := by
  obtain ⟨op, ins, outs, note⟩ := g
  cases op with
  | pack => exact List.head?_map
  | _ => rfl

theorem linearOutput?_rename (hσ : Function.Injective σ) (outputs : List Wire) (g : Gate) :
    linearOutput? (outputs.map σ) (g.rename σ) = (linearOutput? outputs g).map σ := by
  have hmem (w : Wire) : decide (σ w ∈ outputs.map σ) = decide (w ∈ outputs) :=
    decide_eq_decide.mpr (List.mem_map_of_injective hσ)
  obtain ⟨op, ins, outs, note⟩ := g
  cases op with
  | add | sub | constMul a => exact filter_head?_map hmem outs
  | _ => rfl

theorem Carries.agree_padReaders (h : Carries σ n n') (hσ : Function.Injective σ) (one : Wire)
    (inputs : List Wire) (gates : List Gate) :
    Agree (Padded.Renamed σ) (padReaders one inputs n gates)
      (padReaders (σ one) (inputs.map σ) n' (gates.map (Gate.rename σ))) := by
  induction gates generalizing n n' with
  | nil => exact .ok ⟨rfl, rfl, h⟩
  | cons g rest ih =>
    rw [List.map_cons, padReaders, padReaders, internalRead?_rename hσ]
    cases internalRead? inputs g with
    | none => exact (ih h).bind fun p p' hp ↦ .ok ⟨congrArg _ hp.gates, hp.added, hp.next⟩
    | some w =>
      refine h.agree_takeFresh.bind ?_
      rintro ⟨v, m⟩ ⟨_, m'⟩ ⟨rfl, hm⟩
      refine (ih hm).bind fun p p' hp ↦ .ok ⟨?_, ?_, hp.next⟩
      · simp only [hp.gates, List.map_cons, Gate.rename, List.map_tail]
      · rw [Gate.op_rename, Opcode.name_rename]
        exact congrArg _ hp.added

theorem Carries.agree_packChain (h : Carries σ n n') (output acc : Wire) (bits : List Wire) :
    Agree (Follows σ (List.map (Gate.rename σ))) (packChain output n acc bits)
      (packChain (σ output) n' (σ acc) (bits.map σ)) := by
  induction bits generalizing n n' acc with
  | nil => exact .ok ⟨rfl, h⟩
  | cons bit lower ih =>
    rw [List.map_cons, packChain_cons, packChain_cons, List.isEmpty_map]
    refine h.agree_takeFresh.bind ?_
    rintro ⟨doubled, m⟩ ⟨_, m'⟩ ⟨rfl, hm⟩
    have hsum : Agree (Follows σ σ)
        (if lower.isEmpty then .ok (output, m) else takeFresh m)
        (if lower.isEmpty then .ok (σ output, m') else takeFresh m') := by
      split_ifs
      · exact .ok ⟨rfl, hm⟩
      · exact hm.agree_takeFresh
    refine hsum.bind ?_
    rintro ⟨sum, k⟩ ⟨_, k'⟩ ⟨rfl, hk⟩
    refine (ih hk sum).bind ?_
    rintro ⟨gates, l⟩ ⟨_, l'⟩ ⟨rfl, hl⟩
    exact .ok ⟨rfl, hl⟩

theorem Carries.agree_packGates (h : Carries σ n n') (output : Wire) (bits : List Wire) :
    Agree (Follows σ (List.map (Gate.rename σ))) (packGates output n bits)
      (packGates (σ output) n' (bits.map σ)) := by
  match bits with
  | [] => exact .ok ⟨rfl, h⟩
  | [bit] => exact .ok ⟨rfl, h⟩
  | high :: bit :: lower => exact h.agree_packChain output high (bit :: lower)

theorem Carries.agree_expandPacks (h : Carries σ n n') (gates : List Gate) :
    Agree (Padded.Renamed σ) (expandPacks n gates)
      (expandPacks n' (gates.map (Gate.rename σ))) := by
  induction gates generalizing n n' with
  | nil => exact .ok ⟨rfl, rfl, h⟩
  | cons g rest ih =>
    rw [List.map_cons, expandPacks, expandPacks, packOutput?_rename]
    cases packOutput? g with
    | none => exact (ih h).bind fun p p' hp ↦ .ok ⟨congrArg _ hp.gates, hp.added, hp.next⟩
    | some z =>
      have hchain := h.agree_packGates z g.ins.reverse
      rw [List.map_reverse] at hchain
      refine hchain.bind ?_
      rintro ⟨chain, m⟩ ⟨_, m'⟩ ⟨rfl, hm⟩
      refine (ih hm).bind fun p p' hp ↦ .ok ⟨hp.gates, ?_, hp.next⟩
      simp only [hp.added, List.map_append]

theorem Carries.agree_padOutputs (h : Carries σ n n') (hσ : Function.Injective σ) (one : Wire)
    (outputs : List Wire) (gates : List Gate) :
    Agree (Padded.Renamed σ) (padOutputs one outputs n gates)
      (padOutputs (σ one) (outputs.map σ) n' (gates.map (Gate.rename σ))) := by
  induction gates generalizing n n' with
  | nil => exact .ok ⟨rfl, rfl, h⟩
  | cons g rest ih =>
    rw [List.map_cons, padOutputs, padOutputs, linearOutput?_rename hσ]
    cases linearOutput? outputs g with
    | none => exact (ih h).bind fun p p' hp ↦ .ok ⟨congrArg _ hp.gates, hp.added, hp.next⟩
    | some z =>
      refine h.agree_takeFresh.bind ?_
      rintro ⟨v, m⟩ ⟨_, m'⟩ ⟨rfl, hm⟩
      refine (ih hm).bind fun p p' hp ↦ .ok ⟨?_, congrArg _ hp.added, hp.next⟩
      simp only [hp.gates, List.map_cons, Gate.rename, List.map_tail]

/-- Padding takes new wires in the same order, whatever the names of the old ones. -/
theorem Carries.agree_insertPadding (h : Carries σ c.firstFresh (c.rename σ).firstFresh)
    (hσ : Function.Injective σ) :
    Agree (fun x y ↦ y.1 = x.1.rename σ) c.insertPadding (c.rename σ).insertPadding := by
  have hone : (c.rename σ).one? = c.one?.map σ := by
    rw [one?, one?, inputWires_rename, List.head?_map]
  rw [insertPadding, insertPadding, hone, inputWires_rename]
  cases c.one? with
  | none =>
    intro a b ha
    cases ha
  | some one =>
    refine (h.agree_padReaders hσ one c.inputWires c.gates).bind fun readers readers' hr ↦ ?_
    rw [hr.gates, hr.added]
    refine (hr.next.agree_expandPacks readers.gates).bind fun packs packs' hp ↦ ?_
    rw [hp.gates, hp.added, ← List.map_append, ← List.map_append]
    refine (hp.next.agree_padOutputs hσ one c.outputs _).bind fun outs outs' ho ↦ .ok ?_
    rw [ho.gates, ho.added, ← List.map_append]
    rfl

/-- Renames wires below the number `n` by `σ`, and those from `n` on to those from `n'` on. -/
def carry (σ : Wire → Wire) (n n' : Nat) (v : Wire) : Wire :=
  if n ≤ v.id then (Wire.ofNat? (v.id - n + n')).getD v else σ v

theorem carry_of_lt (σ : Wire → Wire) (n' : Nat) {v : Wire} (h : v.id < n) :
    carry σ n n' v = σ v :=
  if_neg (Nat.not_le_of_lt h)

theorem id_carry {v : Wire} (h : n ≤ v.id) (hlt : v.id - n + n' < wireLimit) :
    (carry σ n n' v).id = v.id - n + n' := by
  rw [carry, if_pos h, Wire.ofNat?, dif_pos hlt, Option.getD_some]

/-- Old wires stay below the new ones, so the two kinds are kept apart. -/
theorem injOn_carry (hσ : Function.Injective σ) {S : Set Wire}
    (hS : ∀ v ∈ S, v.id < n ∧ (σ v).id < n') :
    Set.InjOn (carry σ n n') {v | v ∈ S ∨ n ≤ v.id ∧ v.id - n + n' < wireLimit} := by
  rintro v (hv | ⟨hv, hvlt⟩) w (hw | ⟨hw, hwlt⟩) he
  · rw [carry_of_lt σ n' (hS v hv).1, carry_of_lt σ n' (hS w hw).1] at he
    exact hσ he
  · have hlt := (hS v hv).2
    rw [← carry_of_lt σ n' (hS v hv).1, he, id_carry hw hwlt] at hlt
    omega
  · have hlt := (hS w hw).2
    rw [← carry_of_lt σ n' (hS w hw).1, ← he, id_carry hv hvlt] at hlt
    omega
  · have hid := congrArg Wire.id he
    rw [id_carry hv hvlt, id_carry hw hwlt] at hid
    exact Wire.ext (by omega)

/-- A renaming of the wires of a circuit can be chosen to carry new wires to new wires. -/
theorem exists_carries (hσ : Function.Injective σ) (c : Circuit) :
    ∃ τ, Function.Injective τ ∧ (∀ w ∈ c.wires, σ w = τ w) ∧
      Carries τ c.firstFresh (c.rename σ).firstFresh := by
  have hold : ∀ w ∈ {w | w ∈ c.wires}, w.id < c.firstFresh ∧ (σ w).id < (c.rename σ).firstFresh :=
    fun w hw ↦ ⟨id_lt_firstFresh hw, id_lt_firstFresh (mem_wires_rename.mpr ⟨w, hw, rfl⟩)⟩
  generalize c.firstFresh = n at hold ⊢
  generalize (c.rename σ).firstFresh = n' at hold ⊢
  obtain ⟨τ, hτ, heq⟩ := Wire.exists_injective (Set.injOn_id _) (injOn_carry hσ hold)
  refine ⟨τ, hτ, fun w hw ↦ ?_, fun v v' hv hid ↦ ?_⟩
  · rw [← carry_of_lt σ n' (hold w hw).1]
    exact (heq w (.inl hw)).symm
  · have hlt : v.id - n + n' < wireLimit := by
      have hlt' := v'.isLt
      omega
    refine (heq v (.inr ⟨hv, hlt⟩)).trans (Wire.ext ?_)
    rw [id_carry hv hlt]
    omega

theorem Alike.insertPadding (hlike : c.Alike c') (hc : ∀ g ∈ c.gates, g.WellFormed)
    (h : c.insertPadding = .ok (d, n)) (h' : c'.insertPadding = .ok (d', n')) : d.Alike d' := by
  obtain ⟨σ, hσ, rfl⟩ := hlike
  obtain ⟨τ, hτ, heq, hcarries⟩ := exists_carries hσ c
  rw [rename_congr hc heq] at h' hcarries
  exact ⟨τ, hτ, hcarries.agree_insertPadding hτ _ _ h h'⟩

end Circuit

/-! ## Numbering -/

theorem Gate.consumers_rename {σ : Wire → Wire} (hσ : Function.Injective σ) (gates : List Gate)
    (w : Wire) : consumers (gates.map (rename σ)) (σ w) = consumers gates w := by
  rw [consumers, consumers, List.zipIdx_map, List.filter_map, List.map_map]
  refine congrArg _ (List.filter_congr fun x _ ↦ ?_)
  exact decide_eq_decide.mpr (List.mem_map_of_injective hσ)

namespace Visit

variable {order : WireOrder} {c : Circuit} {waiting : List (Gate × Nat)} {v : Visit}
  {σ : Wire → Wire}

/-- Renames the wires that have numbers. -/
def rename (σ : Wire → Wire) (v : Visit) : Visit :=
  { v with numbered := v.numbered.map σ }

theorem addNumber_map (hσ : Function.Injective σ) (ws : List Wire) (w : Wire) :
    addNumber (ws.map σ) (σ w) = (addNumber ws w).map σ := by
  simp only [addNumber, List.mem_map_of_injective hσ]
  split_ifs
  · rfl
  · rw [List.map_append, List.map_singleton]

theorem foldl_addNumber_map (hσ : Function.Injective σ) (new ws : List Wire) :
    (new.map σ).foldl addNumber (ws.map σ) = (new.foldl addNumber ws).map σ := by
  rw [List.foldl_map]
  exact List.foldl_hom (List.map σ) fun ws w ↦ addNumber_map hσ ws w

theorem discover_rename (hσ : Function.Injective σ) (order : WireOrder) (gates : List Gate)
    (v : Visit) (w : Wire) :
    (v.rename σ).discover order (gates.map (Gate.rename σ)) (σ w) =
      (v.discover order gates w).rename σ := by
  rw [discover, discover, Gate.consumers_rename hσ]
  exact List.foldl_hom (rename σ) fun v p ↦ by cases order <;> rfl

theorem reach_rename (hσ : Function.Injective σ) (order : WireOrder) (c : Circuit) (v : Visit)
    (w : Wire) : reach order (c.rename σ) (v.rename σ) (σ w) = (reach order c v w).rename σ := by
  have houtput : σ w ∈ (c.rename σ).outputs ↔ w ∈ c.outputs := List.mem_map_of_injective hσ
  have hnumber : (v.rename σ).number (σ w) = (v.number w).rename σ := by
    simp only [number, rename, addNumber_map hσ]
  have hdiscover (v : Visit) := discover_rename hσ order c.gates v w
  unfold reach
  simp only [houtput, hnumber]
  split_ifs
  · cases order
    · exact hdiscover v
    · rfl
  · exact hdiscover _

/-- Renames the wires of gates that wait. -/
def renameWaiting (σ : Wire → Wire) : List (Gate × Nat) → List (Gate × Nat) :=
  List.map (Prod.map (Gate.rename σ) id)

theorem next?_rename (σ : Wire → Wire) (waiting : List (Gate × Nat)) (queue : List Nat) :
    next? (renameWaiting σ waiting) queue =
      (next? waiting queue).map (Prod.map (Prod.map (Gate.rename σ) id) id) := by
  induction queue with
  | nil => rfl
  | cons p queue ih =>
    have hfind : (renameWaiting σ waiting).find? (·.2 == p) =
        (waiting.find? (·.2 == p)).map (Prod.map (Gate.rename σ) id) := List.find?_map ..
    rw [next?, next?, hfind]
    cases waiting.find? (·.2 == p) with
    | none => exact ih
    | some g => rfl

theorem run_of_next?_eq_none (h : next? waiting v.queue = none) :
    run order c waiting v = (waiting, { v with queue := [] }) := by
  rw [run]
  split
  · rfl
  · rename_i hnext
    cases h.symm.trans hnext

theorem run_of_next?_eq_some {g : Gate} {p : Nat} {queue : List Nat}
    (h : next? waiting v.queue = some ((g, p), queue)) :
    run order c waiting v =
      run order c (others p waiting) (g.outs.foldl (reach order c) { v with queue := queue }) := by
  rw [run]
  split
  · rename_i hnext
    cases h.symm.trans hnext
  · rename_i hnext
    cases h.symm.trans hnext
    rfl

/-- A visit of a renamed circuit makes the same steps. -/
theorem run_rename (hσ : Function.Injective σ) (order : WireOrder) (c : Circuit)
    (waiting : List (Gate × Nat)) (v : Visit) :
    run order (c.rename σ) (renameWaiting σ waiting) (v.rename σ) =
      Prod.map (renameWaiting σ) (rename σ) (run order c waiting v) := by
  fun_induction run order c waiting v with
  | case1 waiting v h =>
    refine run_of_next?_eq_none ?_
    exact (next?_rename σ waiting v.queue).trans (congrArg _ h)
  | case2 waiting v g p queue h ih =>
    have hnext : next? (renameWaiting σ waiting) (v.rename σ).queue =
        some ((g.rename σ, p), queue) :=
      (next?_rename σ waiting v.queue).trans (congrArg _ h)
    have houts : (g.rename σ).outs.foldl (reach order (c.rename σ))
        (rename σ { v with queue := queue }) =
          rename σ (g.outs.foldl (reach order c) { v with queue := queue }) := by
      rw [Gate.rename, List.foldl_map]
      exact List.foldl_hom (rename σ) fun v w ↦ reach_rename hσ order c v w
    have hothers : others p (renameWaiting σ waiting) = renameWaiting σ (others p waiting) := by
      rw [others, renameWaiting, List.filter_map]
      rfl
    rw [run_of_next?_eq_some hnext, hothers, ← ih, ← houts]
    rfl

theorem start_rename (hσ : Function.Injective σ) (order : WireOrder) (c : Circuit) :
    start order (c.rename σ) = (start order c).rename σ := by
  have hpending : (c.rename σ).gates.map (fun g ↦ g.ins.eraseDups.length) =
      c.gates.map fun g ↦ g.ins.eraseDups.length := by
    rw [Circuit.rename, List.map_map]
    refine List.map_congr_left fun g _ ↦ ?_
    have himage : (g.ins.map σ).toFinset = g.ins.toFinset.image σ := Multiset.toFinset_map σ g.ins
    rw [Function.comp_apply, Gate.rename, Wire.length_eraseDups, Wire.length_eraseDups, himage,
      Finset.card_image_of_injective _ hσ]
  have hqueue : ((c.rename σ).gates.zipIdx.filter fun x ↦ x.1.ins.isEmpty).map Prod.snd =
      (c.gates.zipIdx.filter fun x ↦ x.1.ins.isEmpty).map Prod.snd := by
    rw [Circuit.rename, List.zipIdx_map, List.filter_map, List.map_map]
    refine congrArg _ (List.filter_congr fun x _ ↦ ?_)
    exact List.isEmpty_map
  have hnumbered := foldl_addNumber_map hσ c.inputWires []
  have hdiscover (ws : List Wire) (v : Visit) :
      ws.foldl (fun v w ↦ v.discover order (c.rename σ).gates (σ w)) (v.rename σ) =
        (ws.foldl (fun v w ↦ v.discover order c.gates w) v).rename σ :=
    List.foldl_hom (rename σ) fun v w ↦ discover_rename hσ order c.gates v w
  rw [start, start, ← hdiscover, rename, ← hnumbered, Circuit.inputWires_rename, List.foldl_map,
    hpending, hqueue]
  rfl

end Visit

namespace Circuit

variable {c d c' d' : Circuit} {order : WireOrder} {ws ws' : List Wire} {σ : Wire → Wire}

theorem numbering_rename (hσ : Function.Injective σ) (h : c.numbering order = .ok ws) :
    (c.rename σ).numbering order = .ok (ws.map σ) := by
  have hwaiting : (c.rename σ).gates.zipIdx = Visit.renameWaiting σ c.gates.zipIdx :=
    List.zipIdx_map
  unfold numbering at h ⊢
  rw [hwaiting, Visit.start_rename hσ, Visit.run_rename hσ]
  generalize Visit.run order c c.gates.zipIdx (Visit.start order c) = final at h
  obtain ⟨left, v⟩ := final
  cases left with
  | cons x left => cases h
  | nil =>
    have hnumbered : (c.rename σ).outputs.foldl Visit.addNumber (v.rename σ).numbered =
        (c.outputs.foldl Visit.addNumber v.numbered).map σ :=
      Visit.foldl_addNumber_map hσ c.outputs v.numbered
    dsimp only at h
    split at h
    · cases h
    · rename_i hfind
      obtain rfl := Except.ok.inj h
      have hall : (c.rename σ).wires.find?
          (· ∉ (c.outputs.foldl Visit.addNumber v.numbered).map σ) = none := by
        refine List.find?_eq_none.mpr fun w' hw' ↦ ?_
        obtain ⟨w, hw, rfl⟩ := mem_wires_rename.mp hw'
        have hmem := List.find?_eq_none.mp hfind w hw
        simpa only [List.mem_map_of_injective hσ] using hmem
      simp only [Prod.map, Visit.renameWaiting, List.map_nil, hnumbered, hall]

theorem numberIn_map (hσ : Function.Injective σ) (hws : ws.Nodup) {w : Wire} (hw : w ∈ ws) :
    numberIn (ws.map σ) (σ w) = numberIn ws w := by
  refine Wire.ext ?_
  rw [id_numberIn (hws.map hσ) (List.mem_map_of_mem hw), id_numberIn hws hw]
  obtain ⟨i, hi, rfl⟩ := List.getElem_of_mem hw
  have hmap := (hws.map hσ).idxOf_getElem i (by rwa [List.length_map])
  rw [List.getElem_map] at hmap
  rw [hmap, hws.idxOf_getElem i hi]

/-- The numbers of alike circuits make them equal. -/
theorem Alike.renumber (hlike : c.Alike c') (hc : ∀ g ∈ c.gates, g.WellFormed)
    (h : c.renumber order = .ok (d, ws)) (h' : c'.renumber order = .ok (d', ws')) : d = d' := by
  obtain ⟨σ, hσ, rfl⟩ := hlike
  obtain ⟨hnum, rfl⟩ := renumber_eq_ok.mp h
  obtain ⟨hnum', rfl⟩ := renumber_eq_ok.mp h'
  obtain rfl := Except.ok.inj ((numbering_rename hσ hnum).symm.trans hnum')
  rw [rename_rename]
  refine rename_congr hc fun w hw ↦ ?_
  exact (numberIn_map hσ (nodup_numbering hnum) ((mem_numbering hnum).mpr hw)).symm

end Circuit

end Quadratize
