import BlockMachine.Opcode

/-! # Programs

A program is code, a pool of constants and a table of blocks.  Code is a sequence of words; a
block is a range of it.  Words are opcodes, offsets and indexes, and nothing is ever computed from
them, so they are natural numbers here; the file image (`Program.Image`) has 64 bits for each.

The first block of the table is where a run starts.
-/

namespace BlockMachine

/-- The code offsets from `start` up to, but not including, `stop`.  Nothing makes `start` the
smaller one: a range read from a file may be reversed or lie outside the code. -/
structure Range where
  start : Nat
  stop : Nat
  deriving DecidableEq, Repr, Inhabited

namespace Range

def size (r : Range) : Nat :=
  r.stop - r.start

def isEmpty (r : Range) : Bool :=
  r.size == 0

def text (r : Range) : String :=
  s!"[{r.start}, {r.stop})"

def debug (r : Range) : String :=
  s!"Block \x7b begin: {r.start}, end: {r.stop} \x7d"

def debugList (rs : List Range) : String :=
  "[" ++ ", ".intercalate (rs.map debug) ++ "]"

end Range

structure Program where
  code : Array Nat
  constants : Array Value
  blocks : Array Range
  deriving DecidableEq, Repr, Inhabited

namespace Program

def entry? (p : Program) : Option Range :=
  p.blocks[0]?

/-- The sizes of a program's parts, by their names. -/
def sizes (p : Program) : List (String × Nat) :=
  [("blocks", p.blocks.size), ("constants", p.constants.size), ("code", p.code.size)]

end Program

end BlockMachine
