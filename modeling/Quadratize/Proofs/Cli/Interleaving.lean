import Mathlib.Data.List.Forall2
import Quadratize.Proofs.Cli.Program
import Quadratize.Proofs.Except

/-!
# Programs that take turns

Several programs share a map of files, and in each step one of them performs one action.  If no
program reads what any of them writes, and no two of them write different contents to one path, then
all answers are those of the files at the start.  So each program does what it does while the files
stand still, and every run ends with the same values and the same files, in whatever order the
actions come.
-/

namespace Quadratize.Cli

variable {α : Type} {w : Surroundings} {files source out : FileMap}

/-- Programs and the files that they share. -/
structure Pool (α : Type) where
  tasks : List (Prog α)
  files : FileMap

namespace Pool

/-- One of the programs performs its next action. -/
inductive Step (w : Surroundings) : Pool α → Pool α → Prop
  | act (before after : List (Prog α)) (a : Action) (next : a.Answer → Prog α) (files : FileMap) :
    Step w ⟨before ++ .act a next :: after, files⟩
      ⟨before ++ next (a.answer w files) :: after, a.effect files⟩

/-- A run of a given number of steps. -/
inductive Run (w : Surroundings) : Nat → Pool α → Pool α → Prop
  | refl (s : Pool α) : Run w 0 s s
  | step {n : Nat} {s t u : Pool α} (h : Run w n s t) (hstep : Step w t u) : Run w (n + 1) s u

theorem Run.trans {m n : Nat} {s t u : Pool α} (h : Run w m s t) (h' : Run w n t u) :
    Run w (m + n) s u := by
  induction h' with
  | refl => exact h
  | step _ hstep ih => exact .step (ih h) hstep

theorem Step.run {s t : Pool α} (h : Step w s t) : Run w 1 s t :=
  .step (.refl s) h

/-- Unless all programs have ended, one of them can go on. -/
theorem exists_step_or_done (s : Pool α) :
    (∃ t, Step w s t) ∨ ∃ values : List α, s.tasks = values.map .done := by
  obtain ⟨tasks, files⟩ := s
  induction tasks with
  | nil => exact .inr ⟨[], rfl⟩
  | cons p rest ih =>
    cases p with
    | act a next => exact .inl ⟨_, .act [] rest a next files⟩
    | done v =>
      rcases ih with ⟨_, ⟨before, after, a, next⟩⟩ | ⟨values, hvalues⟩
      · exact .inl ⟨_, .act (.done v :: before) after a next files⟩
      · exact .inr ⟨v :: values, congrArg (Prog.done v :: ·) hvalues⟩

/-! ## One program after the other -/

/-- A program may go on to its end while the others wait. -/
theorem run_exec (before after : List (Prog α)) (p : Prog α) (files : FileMap) :
    ∃ n, Run w n ⟨before ++ p :: after, files⟩
      ⟨before ++ .done (p.exec w files).1 :: after, (p.exec w files).2⟩ := by
  induction p generalizing files with
  | done a => exact ⟨0, .refl _⟩
  | act a next ih =>
    obtain ⟨n, hn⟩ := ih (a.answer w files) (a.effect files)
    exact ⟨1 + n, (Step.act before after a next files).run.trans hn⟩

/-- Programs that are run one after the other take turns as well. -/
theorem run_mapM (ended : List α) (tasks : List (Prog α)) (files : FileMap) :
    ∃ n, Run w n ⟨ended.map .done ++ tasks, files⟩
      ⟨(ended ++ ((tasks.mapM id).exec w files).1).map .done,
        ((tasks.mapM id).exec w files).2⟩ := by
  induction tasks generalizing ended files with
  | nil =>
    rw [List.mapM_nil, Prog.exec_pure, List.append_nil, List.append_nil]
    exact ⟨0, .refl _⟩
  | cons p rest ih =>
    obtain ⟨m, hm⟩ := run_exec (w := w) (ended.map .done) rest p files
    obtain ⟨n, hn⟩ := ih (ended ++ [(p.exec w files).1]) (p.exec w files).2
    refine ⟨m + n, hm.trans ?_⟩
    rw [List.mapM_cons, Prog.exec_bind, Prog.exec_bind]
    simpa using hn

end Pool

/-! ## Programs that keep apart -/

/-- An action that reads nothing that is to be written, and writes only what is to be written. -/
def Action.KeepsApart (out : FileMap) : Action → Prop
  | .read path => out path = none
  | .write path content => out path = some content
  | .list _ => False
  | _ => True

/-- An action whose effect is there. -/
def Action.Settled (files : FileMap) : Action → Prop
  | .write path content => files path = some content
  | _ => True

/-- Some of what is to be written has been written, and nothing else has changed. -/
def Between (source out files : FileMap) : Prop :=
  ∀ path, files path = source path ∨
    ∃ content, out path = some content ∧ files path = some content

/-- All that is to be written has been written. -/
def overlay (source out : FileMap) : FileMap :=
  fun path ↦ (out path).or (source path)

theorem overlay_of_eq_none {path : String} (h : out path = none) :
    overlay source out path = source path := by
  rw [overlay, h]
  rfl

theorem overlay_of_eq_some {path content : String} (h : out path = some content) :
    overlay source out path = some content := by
  rw [overlay, h]
  rfl

namespace Action

variable {a b : Action}

/-- The answer is that of the files at the start. -/
theorem KeepsApart.answer_eq (ha : a.KeepsApart out) (h : Between source out files) :
    a.answer w files = a.answer w source := by
  cases a with
  | read path =>
    rcases h path with hpath | ⟨content, hout, -⟩
    · exact hpath
    · have hnone : out path = none := ha
      rw [hnone] at hout
      cases hout
  | list path => exact ha.elim
  | _ => rfl

theorem KeepsApart.between (ha : a.KeepsApart out) (h : Between source out files) :
    Between source out (a.effect files) := by
  cases a with
  | write path content =>
    intro q
    by_cases hq : q = path
    · subst hq
      exact .inr ⟨content, ha, effect_write_self files q content⟩
    · rw [effect_write_of_ne hq]
      exact h q
  | _ => exact h

theorem settled_effect (a : Action) (files : FileMap) : a.Settled (a.effect files) := by
  cases a with
  | write path content => exact effect_write_self files path content
  | _ => trivial

/-- Actions that keep apart do not undo each other's effects. -/
theorem Settled.effect (h : b.Settled files) (hb : b.KeepsApart out) (ha : a.KeepsApart out) :
    b.Settled (a.effect files) := by
  cases a with
  | write path content =>
    cases b with
    | write path' content' =>
      show (write path content).effect files path' = some content'
      by_cases hq : path' = path
      · subst hq
        -- Both write what `out` says.
        have hsame : some content = some content' := Eq.trans (Eq.symm ha) hb
        rw [effect_write_self, hsame]
      · rw [effect_write_of_ne hq]
        exact h
    | _ => trivial
  | _ => exact h

end Action

/-- Programs that keep apart, and that together write all that is to be written. -/
structure Apart (w : Surroundings) (source out : FileMap) (tasks : List (Prog α)) : Prop where
  keeps : ∀ p ∈ tasks, ∀ a ∈ p.trace w source, a.KeepsApart out
  covers : ∀ path content, out path = some content →
    ∃ p ∈ tasks, .write path content ∈ p.trace w source

namespace Pool

/-- What is left of a program that has taken some of its turns: the rest of its actions and its
value, while the effects of its first actions are there. -/
structure Rest (w : Surroundings) (source out files : FileMap) (p q : Prog α) : Prop where
  past : ∃ past, p.trace w source = past ++ q.trace w source ∧ ∀ a ∈ past, a.Settled files
  value : q.value w source = p.value w source
  apart : ∀ a ∈ p.trace w source, a.KeepsApart out

theorem Rest.refl {p : Prog α} (h : ∀ a ∈ p.trace w source, a.KeepsApart out) :
    Rest w source out files p p :=
  ⟨⟨[], rfl, nofun⟩, rfl, h⟩

/-- Another program takes a turn. -/
theorem Rest.wait {p q : Prog α} {a : Action} (h : Rest w source out files p q)
    (ha : a.KeepsApart out) : Rest w source out (a.effect files) p q := by
  obtain ⟨past, hpast, hsettled⟩ := h.past
  refine ⟨⟨past, hpast, fun b hb ↦ (hsettled b hb).effect (h.apart b ?_) ha⟩, h.value, h.apart⟩
  rw [hpast]
  exact List.mem_append_left _ hb

theorem Rest.keepsApart {p : Prog α} {a : Action} {next : a.Answer → Prog α}
    (h : Rest w source out files p (.act a next)) : a.KeepsApart out := by
  obtain ⟨past, hpast, -⟩ := h.past
  refine h.apart a ?_
  rw [hpast]
  exact List.mem_append_right _ List.mem_cons_self

/-- The program itself takes a turn. -/
theorem Rest.act {p : Prog α} {a : Action} {next : a.Answer → Prog α}
    (h : Rest w source out files p (.act a next)) (hfiles : Between source out files) :
    Rest w source out (a.effect files) p (next (a.answer w files)) := by
  have ha : a.KeepsApart out := h.keepsApart
  obtain ⟨past, hpast, hsettled⟩ := (h.wait ha).past
  rw [ha.answer_eq hfiles]
  refine ⟨⟨past ++ [a], ?_, ?_⟩, h.value, h.apart⟩
  · rw [hpast, List.append_assoc]
    rfl
  · exact List.forall_mem_append.mpr
      ⟨hsettled, List.forall_mem_singleton.mpr (a.settled_effect files)⟩

/-- The number of actions that are left in all programs. -/
def remaining (w : Surroundings) (source : FileMap) (tasks : List (Prog α)) : Nat :=
  (tasks.flatMap (·.trace w source)).length

theorem remaining_append_cons (before after : List (Prog α)) (p : Prog α) :
    remaining w source (before ++ p :: after) =
      (p.trace w source).length + remaining w source (before ++ after) := by
  simp only [remaining, List.flatMap_append, List.flatMap_cons, List.length_append]
  omega

/-- What every step keeps. -/
structure Sharing (w : Surroundings) (source out : FileMap) (tasks : List (Prog α)) (n : Nat)
    (s : Pool α) : Prop where
  between : Between source out s.files
  rest : List.Forall₂ (Rest w source out s.files) tasks s.tasks
  steps : n + remaining w source s.tasks = remaining w source tasks

variable {tasks : List (Prog α)}

theorem Sharing.start (h : Apart w source out tasks) :
    Sharing w source out tasks 0 ⟨tasks, source⟩ where
  between := fun _ ↦ .inl rfl
  rest := List.forall₂_same.mpr fun p hp ↦ .refl (h.keeps p hp)
  steps := Nat.zero_add _

theorem Sharing.step {n : Nat} {s t : Pool α} (h : Sharing w source out tasks n s)
    (hstep : Step w s t) : Sharing w source out tasks (n + 1) t := by
  obtain ⟨before, after, a, next, files⟩ := hstep
  obtain ⟨hfiles, htasks, hsteps⟩ := h
  have hbefore := List.forall₂_take_append _ _ _ htasks
  obtain ⟨p, rest, hp, hrest, hdrop⟩ :=
    List.forall₂_cons_right_iff.mp (List.forall₂_drop_append _ _ _ htasks)
  have ha : a.KeepsApart out := hp.keepsApart
  refine ⟨ha.between hfiles, ?_, ?_⟩
  -- The program at the split goes on, and those before and behind it wait.
  · rw [← List.take_append_drop before.length tasks, hdrop]
    exact List.rel_append (hbefore.imp fun _ _ h ↦ h.wait ha)
      (.cons (hp.act hfiles) (hrest.imp fun _ _ h ↦ h.wait ha))
  · rw [remaining_append_cons] at hsteps ⊢
    rw [ha.answer_eq hfiles]
    rw [Prog.trace, List.length_cons] at hsteps
    omega

theorem Sharing.run {n : Nat} {s : Pool α} (hapart : Apart w source out tasks)
    (h : Run w n ⟨tasks, source⟩ s) : Sharing w source out tasks n s := by
  generalize hs : (⟨tasks, source⟩ : Pool α) = s₀ at h
  induction h with
  | refl => exact hs ▸ .start hapart
  | step _ hstep ih => exact (ih hs).step hstep

/-- What the programs leave when all have ended. -/
theorem Sharing.ended {n : Nat} {values : List α} {s : Pool α} (h : Sharing w source out tasks n s)
    (hapart : Apart w source out tasks) (hvalues : s.tasks = values.map .done) :
    values = tasks.map (·.value w source) ∧ s.files = overlay source out := by
  have htasks := h.rest
  rw [hvalues, List.forall₂_map_right_iff] at htasks
  have hsettled : ∀ p ∈ tasks, ∀ a ∈ p.trace w source, a.Settled s.files := by
    intro p hp a ha
    obtain ⟨v, -, hrest⟩ := exists_of_forall₂ htasks.flip hp
    obtain ⟨past, hpast, hsettled⟩ := Rest.past hrest
    rw [Prog.trace, List.append_nil] at hpast
    exact hsettled a (hpast ▸ ha)
  constructor
  · have hvalue : List.Forall₂ (fun v p ↦ v = Prog.value w source p) values tasks :=
      (htasks.imp fun _ _ hrest ↦ hrest.value).flip
    rwa [← List.forall₂_map_right_iff, List.forall₂_eq_eq_eq] at hvalue
  · funext path
    cases hpath : out path with
    | none =>
      rw [overlay_of_eq_none hpath]
      rcases h.between path with hfile | ⟨content, hout, -⟩
      · exact hfile
      · rw [hpath] at hout
        cases hout
    | some content =>
      rw [overlay_of_eq_some hpath]
      obtain ⟨p, hp, hwrite⟩ := hapart.covers path content hpath
      exact hsettled p hp _ hwrite

/-- Programs that keep apart end after as many steps as they have actions, with the values that they
have while the files stand still, and with all files written. -/
theorem Run.ends {n : Nat} {s : Pool α} (h : Run w n ⟨tasks, source⟩ s)
    (hapart : Apart w source out tasks) :
    n ≤ remaining w source tasks ∧ ((∃ t, Step w s t) ∨
      s.tasks = (tasks.map (·.value w source)).map .done ∧ s.files = overlay source out) := by
  have hsharing := Sharing.run hapart h
  constructor
  · exact Nat.le.intro hsharing.steps
  · rcases exists_step_or_done s with hstep | ⟨values, hvalues⟩
    · exact .inl hstep
    · obtain ⟨rfl, hfiles⟩ := hsharing.ended hapart hvalues
      exact .inr ⟨hvalues, hfiles⟩

/-- Programs that have ended do not go on. -/
theorem not_step_of_done {values : List α} {s t : Pool α} (h : s.tasks = values.map .done) :
    ¬Step w s t := by
  rintro ⟨before, after, a, next, files⟩
  have hmem : Prog.act a next ∈ values.map Prog.done := by
    rw [← h]
    exact List.mem_append_right _ List.mem_cons_self
  obtain ⟨v, -, hv⟩ := List.mem_map.mp hmem
  cases hv

/-- Programs that keep apart may as well be run one after the other. -/
theorem exec_mapM (hapart : Apart w source out tasks) :
    (tasks.mapM id).exec w source = (tasks.map (·.value w source), overlay source out) := by
  obtain ⟨n, hrun⟩ := run_mapM (w := w) [] tasks source
  obtain ⟨-, ⟨t, hstep⟩ | ⟨hvalues, hfiles⟩⟩ := hrun.ends hapart
  · exact absurd hstep (not_step_of_done rfl)
  · have hdone : Function.Injective (Prog.done (α := α)) := fun _ _ h ↦ Prog.done.inj h
    exact Prod.ext (List.map_injective_iff.mpr hdone hvalues) hfiles

end Pool

end Quadratize.Cli
