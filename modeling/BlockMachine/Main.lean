import BlockMachine.Command.Invocation

/-! # The command line

The two commands on the files of the system.  The first argument selects the command, `asm` or
`vm`; the others are its arguments.  The files and directories that the arguments name are read
into a file store, the command works on that, and the files it has changed are written back.  The
environment variable `LOG` sets what is logged.
-/

namespace BlockMachine

def Location.text (l : Location) : String :=
  "/" ++ "/".intercalate l

/-- How many steps a run may take: so many that one that takes them all has not stopped in any time
that a user could wait. -/
def stepLimit : Nat :=
  UInt64.size / 4

/-- The store with what the system has at a location. -/
def FileStore.observe (s : FileStore) (l : Location) : IO FileStore := do
  let path := (← IO.currentDir) / l.text
  if ← path.isDir then
    return { s with nodes := s.nodes.insert l .directory }
  if ← path.pathExists then
    return { s with nodes := s.nodes.insert l (.file (← IO.FS.readBinFile path).toList) }
  return s

/-- The store with what the system has along a path. -/
def FileStore.observePath (s : FileStore) (path : String) : IO FileStore := do
  let .ok start := s.origin path | return s
  let mut s := s
  let mut l := start
  for name in Path.names path do
    let .ok next := s.descend l name | return s
    l := next
    s ← s.observe l
  return s

/-- The working directory and what the system has along some paths. -/
def observePaths (paths : List String) : IO FileStore := do
  let home := (Path.names (← IO.currentDir).toString).filter (· ≠ "")
  paths.foldlM FileStore.observePath (.empty home)

/-- The paths that a request to the assembler is about. -/
def Assembler.Request.paths (r : Assembler.Request) : List String :=
  match r.path with
  | some (some path) => [path, r.outputPath path]
  | _ => []

/-- Prints what a command has printed, writes what it has changed, and gives its exit status. -/
def conclude (old : FileStore) : Option Invocation → IO UInt32
  | none => do
    IO.eprintln "the program did not stop"
    return 1
  | some (.usage status usage) => do
    unless usage.isInformation do IO.eprintln "error: the arguments cannot be used"
    return UInt32.ofNat status
  | some (.done status stdout stderr store) => do
    for (l, bytes) in store.changedFiles old do
      IO.FS.writeBinFile l.text ⟨bytes.toArray⟩
    IO.print stdout
    stderr.forM IO.eprintln
    return UInt32.ofNat status

end BlockMachine

open BlockMachine in
def main (arguments : List String) : IO UInt32 := do
  let logging := (← IO.getEnv "LOG").map Log.Filter.ofName
  match arguments with
  | "asm" :: rest =>
    let paths := ((Assembler.Request.ofArguments rest).map (·.paths)).toOption.getD []
    let s ← observePaths paths
    conclude s (Assembler.invoke stepLimit rest logging s)
  | "vm" :: rest =>
    let paths := ((Runner.Request.ofArguments rest).map ([·.file])).toOption.getD []
    let s ← observePaths paths
    conclude s (Runner.invoke stepLimit rest logging s)
  | _ =>
    IO.eprintln "the first argument is asm or vm"
    return 2
