import Quadratize.Cli.Run

/-!
# The program
-/

open Quadratize

/-- Runs an action, with a value for the case that it fails. -/
def orElseDo {α : Type} (other : α) (action : IO α) : IO α :=
  try action catch _ => return other

/-- The file system and the environment of the process. -/
def ioHost : Cli.Host IO where
  isSet name := return (← IO.getEnv name).isSome
  isDir path := do
    let place := (← IO.currentDir) / path
    place.isDir
  list path := orElseDo [] do
    let place := (← IO.currentDir) / path
    let mut names := []
    for entry in ← place.readDir do
      unless ← entry.path.isDir do
        names := entry.fileName :: names
    return names
  read path := orElseDo none (some <$> IO.FS.readFile path)
  write path content := orElseDo false do
    IO.FS.writeFile path content
    return true
  seed
    | some n => IO.setRandSeed n
    | none => return ()
  draw := IO.rand 0 256

/-- Runs the program and prints what it has to say. -/
def main (args : List String) : IO UInt32 := do
  let outcome ← Cli.run ioHost args
  (← IO.getStdout).putStr outcome.stdout
  (← IO.getStderr).putStr outcome.stderr
  return outcome.status.toUInt32
