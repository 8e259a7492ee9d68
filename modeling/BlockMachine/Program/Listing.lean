import BlockMachine.Numeral
import BlockMachine.Program.Decoding

/-! # Listings

The text form of a program for a human reader: the constants, then every block of the table with
its items.  An operand that names a constant or a block is followed by a note with what it names;
offsets have at least four digits.
-/

namespace BlockMachine.Program

/-- What the operand of an instruction names, as a note behind it; empty when it names nothing. -/
def operandNote (p : Program) (op : Opcode) (operand : Nat) : String :=
  match op.operand? with
  | some .constant => ((p.constants[operand]?).map fun v => s!"  ; {v.text}").getD ""
  | some .block => ((p.blocks[operand]?).map fun r => s!"  ; {r.text}").getD ""
  | _ => ""

def itemText (p : Program) : Item → String
  | .instruction _ op none => op.text
  | .instruction _ op (some operand) => s!"{op.text} {operand}{p.operandNote op operand}"
  | .unknown _ word => s!".word {Numeral.hex word}"
  | .truncated _ op => s!"{op.text} <missing operand>"

def itemLine (p : Program) (item : Item) : String :=
  s!"  {Numeral.padded 4 item.offset}  {p.itemText item}\n"

def constantLine (v : Value) (index : Nat) : String :=
  s!"  [{index}] {v.text}\n"

/-- The lines of one block; the first block of the table is the entry. -/
def blockLines (p : Program) (r : Range) (index : Nat) : String :=
  let entry := if index = 0 then " (entry)" else ""
  s!"\nblock[{index}]{entry} {r.text}:\n" ++ String.join ((p.items r).map p.itemLine)

def listing (p : Program) : String :=
  s!"constants ({p.constants.size}):\n"
    ++ String.join (p.constants.toList.mapIdx fun i v => constantLine v i)
    ++ String.join (p.blocks.toList.mapIdx fun i r => p.blockLines r i)

end BlockMachine.Program
