import BlockMachine.Dictionary
import BlockMachine.Program
import BlockMachine.Source.Block

/-! # Layouts

A layout gives every block of a program its place before any code is written: its code range, its
slot in the block table, and the offset of every mark in it.  Blocks are laid out in source order;
the table has the entry block first and the others in source order.

* `Form` — what an instruction assembles to, names not yet resolved;
* `FlatBlock.forms` — the forms of a block, which every instruction has to have;
* `Layout.ofBlocks` — the layout of blocks for a choice of entry block.

A mark takes no code: it names the offset of what follows.  A name that is marked twice in a block
belongs to the later mark; a label that two blocks have belongs to the first one.
-/

namespace BlockMachine

inductive LayoutError
  | noEntry (entry : String)
  | undefinedMark (block name : String) (line : Nat)
  | undefinedBlock (name : String) (line : Nat)
  | invalidInstruction (block text : String) (line : Nat)
  deriving DecidableEq, Repr

def LayoutError.message : LayoutError → String
  | noEntry entry => s!"No entry point found: no block is labelled '{entry}'"
  | undefinedMark block name line =>
    s!"Label '{name}' doesn't exist in current context ({block}::{name}) at line {line}"
  | undefinedBlock name line => s!"Block '{name}' doesn't exist (called at line {line})"
  | invalidInstruction block text line =>
    s!"Instruction '{text}' in block '{block}' cannot be assembled (line {line})"

/-- What an instruction assembles to. -/
inductive Form
  | mark (name : String)
  | plain (op : Opcode)
  | literal (op : Opcode) (n : Int32)
  | jump (condition : Condition) (name : String)
  | call (name : String)
  deriving DecidableEq, Repr

def Form.width : Form → Nat
  | mark _ => 0
  | plain op | literal op _ => op.width
  | jump condition _ => (Opcode.jump condition).width
  | call _ => Opcode.call.width

/-- The form of an instruction; none when it has no opcode, or an operand that the opcode does not
take.  A mark without a name marks the empty name. -/
def Instruction.form? (i : Instruction) : Option Form :=
  match i.mnemonic with
  | .endBlock => none
  | .mark =>
    match i.operand with
    | some (.label name) => some (.mark name)
    | _ => some (.mark "")
  | .op op =>
    match op, i.operand with
    | .ret, none | .act _, none => some (.plain op)
    | .push, some (.integer n) | .popN, some (.integer n) => some (.literal op n)
    | .jump condition, some (.label name) => some (.jump condition name)
    | .call, some (.label name) => some (.call name)
    | _, _ => none

namespace FlatBlock

def form (b : FlatBlock) (i : Instruction) : Except LayoutError Form :=
  match i.form? with
  | some form => .ok form
  | none => .error (.invalidInstruction b.label i.text i.position.line)

def forms (b : FlatBlock) : Except LayoutError (List Form) :=
  b.instructions.mapM b.form

end FlatBlock

/-- The places of blocks and marks. -/
structure Layout where
  /-- the code range of every block, in source order -/
  ranges : List Range
  /-- the block table -/
  table : List Range
  /-- the table slot of every block, in source order -/
  slots : List Nat
  /-- the table slot of every label -/
  labels : Dictionary String Nat
  /-- the code offset of every mark, by the source index of its block and its name -/
  marks : Dictionary (Nat × String) Nat
  codeLength : Nat
  deriving DecidableEq, Repr

namespace Layout

def empty : Layout :=
  ⟨[], [], [], .empty, .empty, 0⟩

/-- The offset of a mark of the block with source index `block`. -/
def mark? (layout : Layout) (block : Nat) (name : String) : Option Nat :=
  layout.marks.get? (block, name)

/-- The table slot of the block with a label. -/
def slot? (layout : Layout) (label : String) : Option Nat :=
  layout.labels.get? label

/-- Ranges of given widths, one behind the other. -/
def tile : (offset : Nat) → List Nat → List Range
  | _, [] => []
  | offset, width :: rest => ⟨offset, offset + width⟩ :: tile (offset + width) rest

/-- The names marked in code that starts at `offset`, with their offsets. -/
def markOffsets : (offset : Nat) → List Form → List (String × Nat)
  | _, [] => []
  | offset, .mark name :: rest => (name, offset) :: markOffsets offset rest
  | offset, form :: rest => markOffsets (offset + form.width) rest

def codeWidth : List Form → Nat
  | [] => 0
  | form :: rest => form.width + codeWidth rest

/-- The marks of all blocks; a later mark takes a name over. -/
def collectMarks (ranges : List Range) (forms : List (List Form)) :
    Dictionary (Nat × String) Nat :=
  let found := (ranges.zip forms).mapIdx fun index (range, forms) =>
    (markOffsets range.start forms).map fun (name, offset) => ((index, name), offset)
  found.flatten.foldl (fun d (key, offset) => d.insert key offset) .empty

/-- The source indices of blocks in the order of the table: the entry block, then the others. -/
def tableOrder (count entry : Nat) : List Nat :=
  entry :: (List.range count).filter (· != entry)

/-- Puts the block with a source index into the next slot of the table, and notes the slot. -/
def seat (ranges : List Range) (filled : List Range × List Nat) (next : Nat × Nat) :
    List Range × List Nat :=
  let (index, slot) := next
  (filled.1 ++ ranges[index]?.toList, filled.2.set index slot)

/-- The block table, and the slot of every block in source order. -/
def seats (ranges : List Range) (entry : Nat) : List Range × List Nat :=
  (tableOrder ranges.length entry).zipIdx.foldl (seat ranges)
    ([], List.replicate ranges.length 0)

/-- The slots of all labels; the first block with a label keeps it. -/
def collectLabels (blocks : List FlatBlock) (slots : List Nat) : Dictionary String Nat :=
  ((blocks.map FlatBlock.label).zip slots).foldl (fun d (label, slot) => d.insertNew label slot)
    .empty

/-- The layout of blocks.  An instruction that cannot be assembled is reported before a missing
entry block. -/
def ofBlocks (blocks : List FlatBlock) (entry : String) : Except LayoutError Layout := do
  -- All widths have to be known before the offset of any block is.
  let forms ← blocks.mapM FlatBlock.forms
  let ranges := tile 0 (forms.map codeWidth)
  let some index := blocks.findIdx? fun b => b.label == entry
    | throw (.noEntry entry)
  let (table, slots) := seats ranges index
  return {
    ranges
    table
    slots
    labels := collectLabels blocks slots
    marks := collectMarks ranges forms
    codeLength := codeWidth forms.flatten }

end Layout

end BlockMachine
