import Mathlib.Logic.Function.Basic
import Quadratize.Cli.Run

/-!
# Commands as programs

The commands work on any host, and so on one that only notes what it is asked.  On that host a
command is a program: a tree of actions that goes on with each possible answer.  A program can be
run on a map from paths to contents, in which every write succeeds, and it can be cut into the
single actions that take turns with those of other programs.
-/

namespace Quadratize.Cli

variable {α β : Type}

/-- What a command asks of its host. -/
inductive Action
  | isSet (name : String)
  | isDir (path : String)
  | list (path : String)
  | read (path : String)
  | write (path content : String)
  | seed (n : Option Nat)
  | draw
deriving DecidableEq

/-- What the host answers. -/
def Action.Answer : Action → Type
  | isSet _ | isDir _ | write _ _ => Bool
  | list _ => List String
  | read _ => Option String
  | seed _ => Unit
  | draw => Nat

/-- A program that asks for actions and ends with a value. -/
inductive Prog (α : Type) : Type
  | done (a : α)
  | act (a : Action) (next : a.Answer → Prog α)

namespace Prog

/-- Goes on with another program. -/
def bind : Prog α → (α → Prog β) → Prog β
  | done a, f => f a
  | act a next, f => act a fun x ↦ (next x).bind f

instance : Monad Prog where
  pure := done
  bind := bind

theorem bind_done (p : Prog α) : p.bind done = p := by
  induction p with
  | done a => rfl
  | act a next ih => exact congrArg (act a) (funext ih)

theorem bind_bind {γ : Type} (p : Prog α) (f : α → Prog β) (g : β → Prog γ) :
    (p.bind f).bind g = p.bind fun a ↦ (f a).bind g := by
  induction p with
  | done a => rfl
  | act a next ih => exact congrArg (act a) (funext ih)

instance : LawfulMonad Prog := LawfulMonad.mk' Prog bind_done (fun _ _ ↦ rfl) bind_bind

/-- The program of a single action. -/
def ask (a : Action) : Prog a.Answer :=
  act a done

/-- The host that only notes what it is asked. -/
def host : Host Prog where
  isSet name := ask (.isSet name)
  isDir path := ask (.isDir path)
  list path := ask (.list path)
  read path := ask (.read path)
  write path content := ask (.write path content)
  seed n := ask (.seed n)
  draw := ask .draw

end Prog

/-! ## Maps of files -/

/-- The contents of files by their paths. -/
abbrev FileMap := String → Option String

/-- What no command changes: the environment variables that are set, a directory, and the names that
files in it may have. -/
structure Surroundings where
  env : List String
  directory : String
  names : List String
  nodup : names.Nodup

namespace Action

/-- The answer to an action.  A file is listed if it has content, and every random number is
zero. -/
def answer (w : Surroundings) (files : FileMap) : (a : Action) → a.Answer
  | isSet name => decide (name ∈ w.env)
  | isDir path => decide (path = w.directory)
  | list path =>
    if path = w.directory then w.names.filter fun n ↦ (files (inDirectory w.directory n)).isSome
    else []
  | read path => files path
  | write _ _ => true
  | seed _ => ()
  | draw => (0 : Nat)

/-- The files after an action. -/
def effect (files : FileMap) : Action → FileMap
  | write path content => Function.update files path (some content)
  | _ => files

theorem effect_write_self (files : FileMap) (path content : String) :
    (write path content).effect files path = some content :=
  Function.update_self path _ files

theorem effect_write_of_ne {q path : String} (h : q ≠ path) (files : FileMap) (content : String) :
    (write path content).effect files q = files q :=
  Function.update_of_ne h _ files

end Action

namespace Prog

variable {w : Surroundings} {files : FileMap}

/-- Runs a program by itself. -/
def exec (w : Surroundings) : Prog α → FileMap → α × FileMap
  | done a, files => (a, files)
  | act a next, files => (next (a.answer w files)).exec w (a.effect files)

@[simp] theorem exec_pure (a : α) (files : FileMap) : exec w (pure a) files = (a, files) :=
  rfl

theorem exec_bind (p : Prog α) (f : α → Prog β) (files : FileMap) :
    (p >>= f).exec w files = (f (p.exec w files).1).exec w (p.exec w files).2 := by
  induction p generalizing files with
  | done a => rfl
  | act a next ih => exact ih _ _

/-! ## What a program does while the files stand still -/

/-- The actions of a program if every answer comes from the same files. -/
def trace (w : Surroundings) (files : FileMap) : Prog α → List Action
  | done _ => []
  | act a next => a :: (next (a.answer w files)).trace w files

/-- The value of a program if every answer comes from the same files. -/
def value (w : Surroundings) (files : FileMap) : Prog α → α
  | done a => a
  | act a next => (next (a.answer w files)).value w files

theorem value_bind (p : Prog α) (f : α → Prog β) :
    (p >>= f).value w files = (f (p.value w files)).value w files := by
  induction p with
  | done a => rfl
  | act a next ih => exact ih _

theorem trace_bind (p : Prog α) (f : α → Prog β) :
    (p >>= f).trace w files = p.trace w files ++ (f (p.value w files)).trace w files := by
  induction p with
  | done a => rfl
  | act a next ih => exact congrArg (a :: ·) (ih _)

end Prog

end Quadratize.Cli
