import BlockMachine.Bytes
import BlockMachine.Dictionary
import BlockMachine.Files.Fault
import BlockMachine.Files.Path

/-! # File stores

A file store holds files and directories below a root.  Paths that do not start at the root start
at the working directory.

* `FileStore.find` — the node at the end of a path;
* `FileStore.read`, `FileStore.write` — whole files; a write that fails changes nothing;
* `FileStore.makeDirectory` — a directory with all the directories above it;
* `FileStore.changedFiles` — the files that one store has and another one has not.
-/

namespace BlockMachine

/-- The names from the root down to a file or directory. -/
abbrev Location := List String

inductive Node
  | file (bytes : Bytes)
  | directory
  deriving DecidableEq, Repr

/-- Files and directories, and the working directory. -/
structure FileStore where
  home : Location
  nodes : Dictionary Location Node
  deriving DecidableEq, Repr

namespace FileStore

/-- A store with nothing but the root and the working directory. -/
def empty (home : Location) : FileStore :=
  ⟨home, (List.range home.length).foldl (fun d n => d.insert (home.take (n + 1)) .directory) .empty⟩

/-- The node at a location; the root is always a directory. -/
def node? (s : FileStore) (l : Location) : Option Node :=
  if l = [] then some .directory else s.nodes.get? l

def maxNameLength : Nat := 255

def maxPathLength : Nat := 4095

/-- One step down a path, from a location that has to be a directory. -/
def descend (s : FileStore) (l : Location) (name : String) : Except IoFault Location :=
  match s.node? l with
  | none => .error .notFound
  | some (.file _) => .error .notDirectory
  | some .directory =>
    if name = "" ∨ name = "." then .ok l
    else if name = ".." then .ok l.dropLast
    else if maxNameLength < name.utf8ByteSize then .error .nameTooLong
    else .ok (l ++ [name])

/-- Where a path starts; paths that are empty, hold a NUL character or are too long lead nowhere. -/
def origin (s : FileStore) (path : String) : Except IoFault Location :=
  if path = "" then .error .notFound
  else if path.toList.contains '\x00' then .error .nulInName
  else if maxPathLength < path.utf8ByteSize then .error .nameTooLong
  else .ok (if Path.isAbsolute path then [] else s.home)

/-- The location that a path leads to, and the node there. -/
def find (s : FileStore) (path : String) : Except IoFault (Location × Node) := do
  let l ← (Path.names path).foldlM s.descend (← s.origin path)
  match s.node? l with
  | some node => return (l, node)
  | none => throw .notFound

def pathExists (s : FileStore) (path : String) : Bool :=
  (s.find path).isOk

def read (s : FileStore) (path : String) : Except IoFault Bytes := do
  match ← s.find path with
  | (_, .file bytes) => return bytes
  | (_, .directory) => throw .isDirectory

/-- The text of a file, which has to be UTF-8. -/
def readText (s : FileStore) (path : String) : Except IoFault String := do
  match String.fromUTF8? ⟨(← s.read path).toArray⟩ with
  | some text => return text
  | none => throw .invalidText

/-- The location of a file to be written: a name in a directory that is there.  A path that can
only lead to a directory, because of how it ends, is refused whatever its last name is. -/
def target (s : FileStore) (path : String) : Except IoFault Location := do
  let names := (Path.names path).reverse
  let slashes := names.takeWhile (· == "")
  let l ← (names.drop (slashes.length + 1)).reverse.foldlM s.descend (← s.origin path)
  match names.drop slashes.length with
  | [] => throw .isDirectory
  | name :: _ =>
    -- The empty name leads to `l` itself, which has to be a directory before anything else.
    let l ← s.descend l ""
    if slashes ≠ [] ∨ name = "." ∨ name = ".." then throw .isDirectory
    s.descend l name

/-- Writes a file, new or instead of the one that is there. -/
def write (s : FileStore) (path : String) (bytes : Bytes) : Except IoFault FileStore := do
  let l ← s.target path
  match s.node? l with
  | some .directory => throw .isDirectory
  | _ => return { s with nodes := s.nodes.insert l (.file bytes) }

/-- Makes a directory and the directories above it, where there is nothing yet. -/
def makeDirectory (s : FileStore) (l : Location) : FileStore :=
  { s with
    nodes := (List.range l.length).foldl (fun d n => d.insertNew (l.take (n + 1)) .directory)
      s.nodes }

/-- The location a path spells, whatever is there. -/
def spelled (s : FileStore) (path : String) : Location :=
  (if Path.isAbsolute path then [] else s.home) ++
    (Path.names path).filter fun name => name ≠ "" ∧ name ≠ "."

/-- The store with a node at the end of a path, and the directories above it. -/
def place (s : FileStore) (path : String) (node : Node) : FileStore :=
  let l := s.spelled path
  let s := s.makeDirectory l.dropLast
  { s with nodes := s.nodes.insert l node }

/-- The files that differ from those of an older store. -/
def changedFiles (s old : FileStore) : List (Location × Bytes) :=
  s.nodes.entries.filterMap fun (l, node) =>
    match node with
    | .file bytes => if old.node? l = some node then none else some (l, bytes)
    | .directory => none

end FileStore

end BlockMachine
