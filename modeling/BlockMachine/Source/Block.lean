import BlockMachine.Source.Mnemonic
import BlockMachine.Source.Position
import BlockMachine.Value

/-! # Blocks

A source text is a forest of labelled blocks.  A block holds instructions and further blocks; the
nesting has no meaning beyond the text, and flattening discards it.

* `CodeBlock` — a block as written, `FlatBlock` — a block without the blocks nested in it;
* `CodeBlock.flattenAll` — all blocks of a forest, each before the blocks nested in it.
-/

namespace BlockMachine

/-- A source instruction and where its keyword stands.  Whether the operand is of the kind that
the mnemonic takes is checked when the instruction is assembled. -/
structure Instruction where
  mnemonic : Mnemonic
  operand : Option Value
  position : Position
  deriving DecidableEq, Repr

def Instruction.text (i : Instruction) : String :=
  match i.operand with
  | none => i.mnemonic.text
  | some (.integer n) => s!"{i.mnemonic.text} {n.toInt}"
  | some (.label name) => s!"{i.mnemonic.text} {name}"

/-- A block as written: its label, its own instructions, the blocks nested in it, and the line of
its label. -/
structure CodeBlock where
  label : String
  instructions : List Instruction
  blocks : List CodeBlock
  line : Nat
  deriving Repr

/-- A block without the blocks nested in it. -/
structure FlatBlock where
  label : String
  instructions : List Instruction
  line : Nat
  deriving DecidableEq, Repr

namespace CodeBlock

def head (b : CodeBlock) : FlatBlock :=
  ⟨b.label, b.instructions, b.line⟩

mutual

/-- A block and the blocks nested in it, each before those nested in it. -/
def flatten : CodeBlock → List FlatBlock
  | ⟨label, instructions, blocks, line⟩ => ⟨label, instructions, line⟩ :: flattenAll blocks

/-- The blocks of a forest, each before those nested in it. -/
def flattenAll : List CodeBlock → List FlatBlock
  | [] => []
  | b :: rest => b.flatten ++ flattenAll rest

end

end CodeBlock

end BlockMachine
