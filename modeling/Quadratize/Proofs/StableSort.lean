import Mathlib.Data.List.Perm.Basic

/-!
# Stable sorting

A list is stably sorted by a key if keys ascend and the elements with the same key keep their order.
There is one such arrangement of a list, and merge sort finds it.
-/

namespace Quadratize

variable {α : Type} {key : α → Nat} {l m : List α} {k : Nat}

/-- The second list is the first, stably sorted by the key. -/
structure StablySorted (key : α → Nat) (l m : List α) : Prop where
  perm : m.Perm l
  ascending : m.Pairwise (key · ≤ key ·)
  ties : ∀ k, m.filter (key · = k) = l.filter (key · = k)

theorem mem_of_ties (h : ∀ k, l.filter (key · = k) = m.filter (key · = k)) {a : α} (ha : a ∈ l) :
    a ∈ m := by
  have hclass : a ∈ l.filter (key · = key a) := List.mem_filter.mpr ⟨ha, decide_eq_true rfl⟩
  rw [h] at hclass
  exact List.mem_of_mem_filter hclass

/-- Lists with ascending keys that agree on the elements with each key are equal. -/
theorem eq_of_ascending_of_ties (hl : l.Pairwise (key · ≤ key ·)) (hm : m.Pairwise (key · ≤ key ·))
    (h : ∀ k, l.filter (key · = k) = m.filter (key · = k)) : l = m := by
  induction l generalizing m with
  | nil =>
    symm
    rw [List.eq_nil_iff_forall_not_mem]
    intro a ha
    cases mem_of_ties (fun k ↦ (h k).symm) ha
  | cons a l ih =>
    cases m with
    | nil => cases mem_of_ties h List.mem_cons_self
    | cons b m =>
      obtain ⟨ha, hrestl⟩ := List.pairwise_cons.mp hl
      obtain ⟨hb, hrestm⟩ := List.pairwise_cons.mp hm
      -- Each head has the least key, and each is an element of the other list.
      have hba : key b ≤ key a := by
        rcases List.mem_cons.mp (mem_of_ties h List.mem_cons_self) with rfl | hmem
        · exact Nat.le_refl _
        · exact hb a hmem
      have hab : key a ≤ key b := by
        rcases List.mem_cons.mp (mem_of_ties (fun k ↦ (h k).symm) List.mem_cons_self) with rfl | hmem
        · exact Nat.le_refl _
        · exact ha b hmem
      have hkey : key b = key a := Nat.le_antisymm hba hab
      simp only [List.filter_cons, decide_eq_true_eq, hkey] at h
      have hhead := h (key a)
      rw [if_pos rfl, if_pos rfl] at hhead
      obtain ⟨rfl, -⟩ := List.cons.inj hhead
      congr 1
      apply ih hrestl hrestm
      intro k
      have hk := h k
      by_cases hak : key a = k
      · rw [if_pos hak, if_pos hak] at hk
        exact (List.cons.inj hk).2
      · rwa [if_neg hak, if_neg hak] at hk

/-- The elements with one key are in ascending order. -/
theorem pairwise_filter_key (key : α → Nat) (l : List α) (k : Nat) :
    (l.filter (key · = k)).Pairwise (key · ≤ key ·) := by
  apply List.pairwise_of_forall_mem_list
  intro a ha b hb
  have hka : key a = k := of_decide_eq_true (List.mem_filter.mp ha).2
  have hkb : key b = k := of_decide_eq_true (List.mem_filter.mp hb).2
  exact Nat.le_of_eq (hka.trans hkb.symm)

/-- The elements with the least key come first, in their order, and then the others. -/
theorem StablySorted.append (hle : ∀ a ∈ l, k ≤ key a)
    (h : StablySorted key (l.filter (key · ≠ k)) m) :
    StablySorted key l (l.filter (key · = k) ++ m) := by
  have hrest {a : α} (ha : a ∈ m) : a ∈ l ∧ key a ≠ k := by
    obtain ⟨hmem, hne⟩ := List.mem_filter.mp (h.perm.mem_iff.mp ha)
    exact ⟨hmem, of_decide_eq_true hne⟩
  constructor
  · refine (h.perm.append_left _).trans ?_
    simp only [ne_eq, decide_not]
    exact List.filter_append_perm _ _
  · rw [List.pairwise_append]
    refine ⟨pairwise_filter_key key l k, h.ascending, ?_⟩
    · intro a ha b hb
      rw [of_decide_eq_true (List.mem_filter.mp ha).2]
      exact hle b (hrest hb).1
  · intro j
    rw [List.filter_append, h.ties j, List.filter_filter, List.filter_filter]
    by_cases hj : j = k
    · subst hj
      have hnone : l.filter (fun a ↦ decide (key a = j) && decide (key a ≠ j)) = [] := by
        rw [List.filter_eq_nil_iff]
        intro a _
        simp
      rw [hnone, List.append_nil]
      simp only [Bool.and_self]
    · have hnone : l.filter (fun a ↦ decide (key a = j) && decide (key a = k)) = [] := by
        rw [List.filter_eq_nil_iff]
        intro a _ ha
        rw [Bool.and_eq_true, decide_eq_true_iff, decide_eq_true_iff] at ha
        exact hj (ha.1.symm.trans ha.2)
      rw [hnone, List.nil_append]
      apply List.filter_congr
      intro a _
      by_cases ha : key a = j
      · simp [ha, hj]
      · simp [ha]

/-! ## Merge sort -/

theorem keyLe_trans (key : α → Nat) (a b c : α) (hab : decide (key a ≤ key b) = true)
    (hbc : decide (key b ≤ key c) = true) : decide (key a ≤ key c) = true :=
  decide_eq_true (Nat.le_trans (of_decide_eq_true hab) (of_decide_eq_true hbc))

theorem keyLe_total (key : α → Nat) (a b : α) :
    (decide (key a ≤ key b) || decide (key b ≤ key a)) = true := by
  rw [Bool.or_eq_true, decide_eq_true_iff, decide_eq_true_iff]
  exact Nat.le_total (key a) (key b)

theorem stablySorted_mergeSort (key : α → Nat) (l : List α) :
    StablySorted key l (l.mergeSort fun a b ↦ key a ≤ key b) := by
  have hperm := List.mergeSort_perm l fun a b ↦ decide (key a ≤ key b)
  constructor
  · exact hperm
  · exact (List.pairwise_mergeSort (keyLe_trans key) (keyLe_total key) l).imp of_decide_eq_true
  · intro k
    -- The elements with one key are sorted already, so merge sort keeps their order.
    have hclass := List.sublist_mergeSort (keyLe_trans key) (keyLe_total key)
      ((pairwise_filter_key key l k).imp decide_eq_true) List.filter_sublist
    have hself := hclass.filter (key · = k)
    rw [List.filter_filter] at hself
    simp only [Bool.and_self] at hself
    exact (hself.eq_of_length (hperm.filter _).length_eq.symm).symm

/-- What is stably sorted is what merge sort gives. -/
theorem StablySorted.eq_mergeSort (h : StablySorted key l m) :
    m = l.mergeSort fun a b ↦ key a ≤ key b := by
  have hsort := stablySorted_mergeSort key l
  apply eq_of_ascending_of_ties h.ascending hsort.ascending
  intro k
  rw [h.ties, hsort.ties]

end Quadratize
