import Quadratize.Circuit.Basic
import Quadratize.Proofs.Except

/-!
# Lists of gates that become shorter

A pass that removes gates goes through a list and, in order, puts a gate in the place of each gate
or removes it.  The gates that are removed are listed in their order as well.
-/

namespace Quadratize.Gate

/-- The list `after` comes from `before` by putting in the place of each gate `g` a gate `a` with
`Stands g a`, or by removing `g` if `Goes g`. -/
inductive Thinning (Stands : Gate → Gate → Prop) (Goes : Gate → Prop) :
    (before after removed : List Gate) → Prop
  | nil : Thinning Stands Goes [] [] []
  | keep {g a : Gate} {before after removed : List Gate} (h : Stands g a)
      (rest : Thinning Stands Goes before after removed) :
      Thinning Stands Goes (g :: before) (a :: after) removed
  | remove {g : Gate} {before after removed : List Gate} (h : Goes g)
      (rest : Thinning Stands Goes before after removed) :
      Thinning Stands Goes (g :: before) after (g :: removed)

namespace Thinning

variable {Stands : Gate → Gate → Prop} {Goes : Gate → Prop} {g a : Gate}
  {before middle after removed : List Gate}

/-! ## Which gates are there -/

theorem length (h : Thinning Stands Goes before after removed) :
    after.length + removed.length = before.length := by
  induction h with
  | nil => rfl
  | keep _ _ ih =>
    rw [List.length_cons, List.length_cons, ← ih]
    omega
  | remove _ _ ih =>
    rw [List.length_cons, List.length_cons, ← ih]
    omega

/-- A gate from before is removed, or another one stands for it. -/
theorem exists_after (h : Thinning Stands Goes before after removed) (hg : g ∈ before) :
    g ∈ removed ∨ ∃ a ∈ after, Stands g a := by
  induction h with
  | nil => cases hg
  | keep hstands _ ih =>
    rcases List.mem_cons.mp hg with rfl | hg
    · exact .inr ⟨_, List.mem_cons_self, hstands⟩
    · exact (ih hg).imp_right fun ⟨a, ha, hga⟩ ↦ ⟨a, List.mem_cons_of_mem _ ha, hga⟩
  | remove _ _ ih =>
    rcases List.mem_cons.mp hg with rfl | hg
    · exact .inl List.mem_cons_self
    · exact (ih hg).imp_left (List.mem_cons_of_mem _)

theorem of_mem_removed (h : Thinning Stands Goes before after removed) (hg : g ∈ removed) :
    g ∈ before ∧ Goes g := by
  induction h with
  | nil => cases hg
  | keep _ _ ih => exact (ih hg).imp_left (List.mem_cons_of_mem _)
  | remove hgoes _ ih =>
    rcases List.mem_cons.mp hg with rfl | hg
    · exact ⟨List.mem_cons_self, hgoes⟩
    · exact (ih hg).imp_left (List.mem_cons_of_mem _)

/-- A property that does not tell gates from those in their places holds of all gates if it holds
of those that are there afterwards and of those that are removed. -/
theorem forall_iff {P : Gate → Prop} (h : Thinning Stands Goes before after removed)
    (hP : ∀ g a, Stands g a → (P g ↔ P a)) :
    (∀ g ∈ before, P g) ↔ (∀ a ∈ after, P a) ∧ ∀ g ∈ removed, P g := by
  induction h with
  | nil => exact ⟨fun _ ↦ ⟨nofun, nofun⟩, fun _ ↦ nofun⟩
  | keep hstands _ ih =>
    rw [List.forall_mem_cons, List.forall_mem_cons, ih, hP _ _ hstands, and_assoc]
  | remove _ _ ih =>
    rw [List.forall_mem_cons, List.forall_mem_cons, ih]
    exact and_left_comm

/-! ## Making and composing them -/

/-- A filter that also changes the elements thins a list of gates. -/
theorem of_filterMap {α : Type} {src : α → Gate} {f : α → Option Gate} {l : List α}
    (hkeep : ∀ x ∈ l, ∀ a, f x = some a → Stands (src x) a)
    (hremove : ∀ x ∈ l, f x = none → Goes (src x)) :
    Thinning Stands Goes (l.map src) (l.filterMap f) ((l.filter fun x ↦ (f x).isNone).map src) := by
  induction l with
  | nil => exact .nil
  | cons x l ih =>
    obtain ⟨hk, hkeep⟩ := List.forall_mem_cons.mp hkeep
    obtain ⟨hr, hremove⟩ := List.forall_mem_cons.mp hremove
    have hrest := ih hkeep hremove
    cases hx : f x with
    | none =>
      rw [List.filterMap_cons_none hx, List.filter_cons_of_pos (by simp [hx])]
      exact .remove (hr hx) hrest
    | some a =>
      rw [List.filterMap_cons_some hx, List.filter_cons_of_neg (by simp [hx])]
      exact .keep (hk a hx) hrest

/-- Putting a gate in the place of every gate removes none. -/
theorem of_forall₂ (h : List.Forall₂ Stands before after) :
    Thinning Stands Goes before after [] := by
  induction h with
  | nil => exact .nil
  | cons hga _ ih => exact .keep hga ih

/-- One pass after another.  A property that does not tell gates from those in their places holds of
all gates that are removed if it holds of those that each pass removes. -/
theorem trans {Stands' Stands'' : Gate → Gate → Prop} {Goes' Goes'' : Gate → Prop}
    {first second : List Gate} (h : Thinning Stands Goes before middle first)
    (h' : Thinning Stands' Goes' middle after second)
    (hstands : ∀ g m a, Stands g m → Stands' m a → Stands'' g a)
    (hfirst : ∀ g, Goes g → Goes'' g) (hsecond : ∀ g m, Stands g m → Goes' m → Goes'' g) :
    ∃ removed, Thinning Stands'' Goes'' before after removed ∧
      ∀ P : Gate → Prop, (∀ g m, Stands g m → (P g ↔ P m)) →
        ((∀ g ∈ removed, P g) ↔ (∀ g ∈ first, P g) ∧ ∀ g ∈ second, P g) := by
  induction h generalizing after second with
  | nil =>
    cases h'
    exact ⟨[], .nil, fun P _ ↦ ⟨fun _ ↦ ⟨nofun, nofun⟩, fun _ ↦ nofun⟩⟩
  | @keep g m before middle first hgm _ ih =>
    cases h' with
    | keep hma hrest =>
      obtain ⟨removed, hthin, hP⟩ := ih hrest
      exact ⟨removed, .keep (hstands _ _ _ hgm hma) hthin, hP⟩
    | @remove _ _ _ second hm hrest =>
      obtain ⟨removed, hthin, hP⟩ := ih hrest
      refine ⟨g :: removed, .remove (hsecond _ _ hgm hm) hthin, fun P hstable ↦ ?_⟩
      rw [List.forall_mem_cons, List.forall_mem_cons, hP P hstable, hstable g m hgm]
      exact and_left_comm
  | @remove g before middle first hg _ ih =>
    obtain ⟨removed, hthin, hP⟩ := ih h'
    refine ⟨g :: removed, .remove (hfirst g hg) hthin, fun P hstable ↦ ?_⟩
    rw [List.forall_mem_cons, List.forall_mem_cons, hP P hstable, and_assoc]

end Thinning

end Quadratize.Gate
