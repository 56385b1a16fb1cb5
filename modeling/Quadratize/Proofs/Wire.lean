import Mathlib.Data.Finset.Card
import Mathlib.Data.List.Perm.Basic
import Quadratize.Wire

/-!
# Lists of wires

The distinct wires of a list in ascending order depend only on the set of its wires.
-/

namespace Quadratize.Wire

/-- A numeral stands for the wire with its number, reduced below the limit. -/
instance (n : Nat) : OfNat Wire n :=
  ⟨⟨n % wireLimit, Nat.mod_lt n first.isLt⟩⟩

theorem lookup_eq_none {β : Type} {l : List (Wire × β)} {w : Wire} (h : w ∉ l.map Prod.fst) :
    l.lookup w = none := by
  refine List.lookup_eq_none_iff.mpr fun p hp ↦ ?_
  have hne : w ≠ p.1 := fun he ↦ h (List.mem_map.mpr ⟨p, hp, he.symm⟩)
  simpa using hne

theorem nodup_eraseDups (l : List Wire) : l.eraseDups.Nodup := by
  induction hn : l.length using Nat.strongRecOn generalizing l with
  | ind n ih =>
    cases l with
    | nil => exact .nil
    | cons w rest =>
      rw [List.eraseDups_cons, List.nodup_cons, List.mem_eraseDups]
      refine ⟨by simp, ih _ ?_ _ rfl⟩
      rw [← hn, List.length_cons]
      exact Nat.lt_succ_of_le (List.length_filter_le _ _)

theorem length_eraseDups (l : List Wire) : l.eraseDups.length = l.toFinset.card := by
  rw [← List.toFinset_card_of_nodup (nodup_eraseDups l)]
  congr 1
  ext w
  simp

theorem pairwise_insert {w : Wire} {l : List Wire} (h : l.Pairwise (·.id < ·.id)) :
    (insert w l).Pairwise (·.id < ·.id) := by
  induction l with
  | nil => exact List.pairwise_singleton _ w
  | cons v rest ih =>
    obtain ⟨hv, hrest⟩ := List.pairwise_cons.mp h
    unfold insert
    split_ifs with hlt hgt
    · refine List.pairwise_cons.mpr ⟨fun u hu ↦ ?_, h⟩
      rcases List.mem_cons.mp hu with rfl | hu
      · exact hlt
      · exact Nat.lt_trans hlt (hv u hu)
    · refine List.pairwise_cons.mpr ⟨fun u hu ↦ ?_, ih hrest⟩
      rcases mem_insert.mp hu with rfl | hu
      · exact hgt
      · exact hv u hu
    · exact h

theorem pairwise_ascending (l : List Wire) : (ascending l).Pairwise (·.id < ·.id) := by
  induction l with
  | nil => exact .nil
  | cons w l ih => exact pairwise_insert ih

theorem nodup_of_pairwise {l : List Wire} (h : l.Pairwise (·.id < ·.id)) : l.Nodup := by
  refine h.imp fun {v w} hlt he ↦ ?_
  rw [he] at hlt
  exact Nat.lt_irrefl _ hlt

/-- Strictly ascending lists with the same wires are equal. -/
theorem eq_of_pairwise {l m : List Wire} (hl : l.Pairwise (·.id < ·.id))
    (hm : m.Pairwise (·.id < ·.id)) (h : ∀ w, w ∈ l ↔ w ∈ m) : l = m := by
  have hperm : l.Perm m :=
    (List.perm_ext_iff_of_nodup (nodup_of_pairwise hl) (nodup_of_pairwise hm)).mpr h
  refine hperm.eq_of_pairwise (fun v w _ _ hvw hwv ↦ ?_) hl hm
  exact absurd (Nat.lt_trans hvw hwv) (Nat.lt_irrefl _)

/-- The last wire of an ascending list is the largest. -/
theorem id_le_of_getLast? {l : List Wire} (h : l.Pairwise (·.id < ·.id)) {v w : Wire}
    (hv : l.getLast? = some v) (hw : w ∈ l) : w.id ≤ v.id := by
  obtain ⟨init, rfl⟩ := List.getLast?_eq_some_iff.mp hv
  rcases List.mem_append.mp hw with hw | hw
  · exact Nat.le_of_lt ((List.pairwise_append.mp h).2.2 w hw v (List.mem_singleton_self v))
  · exact Nat.le_of_eq (congrArg Wire.id (List.mem_singleton.mp hw))

end Quadratize.Wire
