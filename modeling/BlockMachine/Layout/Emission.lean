import BlockMachine.Layout

/-! # Emission

Writing the code of blocks against a layout: the words of every instruction in source order, names
replaced by what the layout says, and integer operands by their place among the constants, which an
integer enters when it is first used.

* `Emission` — code and constants so far, and an index to find them by;
* `emit` — the program of blocks for any layout, whether or not it is their own;
* `assembleBlocks` — layout and emission.
-/

namespace BlockMachine

/-- The code and the constants written so far. -/
structure Emission where
  code : Array Nat
  constants : Array Value
  /-- the place of every integer among the constants -/
  index : Dictionary Int32 Nat
  deriving DecidableEq, Repr

namespace Emission

def start : Emission :=
  ⟨#[], #[], .empty⟩

def put (e : Emission) (op : Opcode) (operand : Nat) : Emission :=
  { e with code := (e.code.push op.word).push operand }

/-- The place of an integer among the constants.  One that has no place yet enters constants and
index together. -/
def intern (e : Emission) (n : Int32) : Emission × Nat :=
  match e.index.get? n with
  | some place => (e, place)
  | none =>
    let place := e.constants.size
    ({ e with constants := e.constants.push (.integer n), index := e.index.insert n place }, place)

/-- Writes an instruction of the block with source index `index`. -/
def add (layout : Layout) (block : FlatBlock) (index : Nat) (e : Emission) (i : Instruction) :
    Except LayoutError Emission := do
  -- The layout may belong to other blocks, so the form is checked here again.
  match ← block.form i with
  | .mark _ => return e
  | .plain op => return { e with code := e.code.push op.word }
  | .literal op n =>
    let (e, place) := e.intern n
    return e.put op place
  | .jump condition name =>
    match layout.mark? index name with
    | some offset => return e.put (.jump condition) offset
    | none => throw (.undefinedMark block.label name i.position.line)
  | .call name =>
    match layout.slot? name with
    | some slot => return e.put .call slot
    | none => throw (.undefinedBlock name i.position.line)

def addBlock (layout : Layout) (e : Emission) (block : FlatBlock × Nat) :
    Except LayoutError Emission :=
  block.1.instructions.foldlM (add layout block.1 block.2) e

end Emission

def emit (blocks : List FlatBlock) (layout : Layout) : Except LayoutError Program := do
  let e ← blocks.zipIdx.foldlM (Emission.addBlock layout) .start
  return ⟨e.code, e.constants, layout.table.toArray⟩

/-- The program of blocks, with the first block labelled `entry` as its entry block. -/
def assembleBlocks (blocks : List FlatBlock) (entry : String) : Except LayoutError Program := do
  emit blocks (← Layout.ofBlocks blocks entry)

end BlockMachine
