import BlockMachine.Files.Store
import BlockMachine.Log
import BlockMachine.Program.Image

/-! # Programs in files

Saving writes the image of a program to a file, and loading reads it back.  A program that has no
image is refused before the file is touched.
-/

namespace BlockMachine

def FileStore.save (s : FileStore) (p : Program) (path : String) : Except ImageError FileStore := do
  let bytes ← Image.encode p
  (s.write path bytes).mapError .io

/-- Reads a program from a file; bytes behind the program are ignored. -/
def FileStore.load (s : FileStore) (path : String) : Except ImageError Program := do
  let bytes ← (s.read path).mapError .io
  return (← Image.decode bytes).1

def savedEntry (path : String) (p : Program) : Log.Entry :=
  let image := (Image.deliver none (Image.writes p)).1
  ⟨.info, "saved program", [("path", path), .nat "bytes" image.length]⟩

def Program.sizeFields (p : Program) : List Log.Field :=
  p.sizes.map fun (name, size) => .nat name size

def loadedEntry (path : String) (p : Program) : Log.Entry :=
  ⟨.info, "loaded program", ("path", path) :: p.sizeFields⟩

end BlockMachine
