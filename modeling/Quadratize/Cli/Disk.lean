import Quadratize.Cli.Run

/-!
# A model of a file system

A disk maps paths to contents. A path is the list of its components; the directories are the
proper prefixes of the paths of files.
-/

namespace Quadratize.Cli

/-- Files by their paths from the working directory. -/
abbrev Disk := List (List String × String)

namespace Disk

/-- Whether a path is a directory. The working directory is one. -/
def isDir (d : Disk) (path : List String) : Bool :=
  path.isEmpty || d.any fun f ↦ path.isPrefixOf f.1 && path.length < f.1.length

/-- Follows the components of a path, each of which must start in a directory. A path that leaves the
working directory leads nowhere. -/
def follow (d : Disk) : List String → List String → Option (List String)
  | here, [] => some here
  | here, c :: cs =>
    if d.isDir here then
      if c = "" ∨ c = "." then follow d here cs
      else if c = ".." then if here.isEmpty then none else follow d here.dropLast cs
      else follow d (here ++ [c]) cs
    else none

/-- The components of a written path. -/
def components (path : String) : List String :=
  (path.toList.splitOn '/').map String.ofList

/-- The place that a written path leads to. A path from the root of the file system leads nowhere. -/
def resolve? (d : Disk) (path : String) : Option (List String) :=
  if path.startsWith "/" then none else d.follow [] (components path)

/-- The content of a file. -/
def read? (d : Disk) (path : String) : Option String :=
  (d.resolve? path).bind fun place ↦ d.lookup place

/-- Replaces the content at a path. -/
def put (d : Disk) (path : List String) (content : String) : Disk :=
  match d with
  | [] => [(path, content)]
  | f :: rest => if f.1 = path then (path, content) :: rest else f :: put rest path content

/-- Writes a file, unless its path is a directory or leads through something else. -/
def write? (d : Disk) (path content : String) : Option Disk :=
  match d.resolve? path with
  | none => none
  | some place =>
    if d.isDir place || !d.isDir place.dropLast then none else some (d.put place content)

/-- The names of the files directly in a directory. -/
def list (d : Disk) (path : String) : List String :=
  match d.resolve? path with
  | none => []
  | some place =>
    d.filterMap fun f ↦
      match place.isPrefixOf? f.1 with
      | some [name] => some name
      | _ => none

/-- The host of a disk, with the environment variables that are set. Every random number is
zero. -/
def host (env : List String) : Host (StateM Disk) where
  isSet name := return name ∈ env
  isDir path := return ((← get).resolve? path).any ((← get).isDir)
  list path := return (← get).list path
  read path := return (← get).read? path
  write path content := do
    match (← get).write? path content with
    | some d =>
      set d
      return true
    | none => return false
  seed _ := return ()
  draw := return 0

end Disk

end Quadratize.Cli
