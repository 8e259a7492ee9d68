import BlockMachine.Program

/-! # Decoding a code range

A code range reads as a sequence of items: instructions with their operands, words that are no
opcode, and at the very end an opcode whose operand would lie outside the range.

* `Item.words` — the code words an item stands for;
* `itemAt?` — the item at an offset;
* `Program.items` — the items of a range, which is first cut off at the end of the code.
-/

namespace BlockMachine

/-- What stands at one place of the code. -/
inductive Item
  | instruction (offset : Nat) (op : Opcode) (operand : Option Nat)
  | unknown (offset word : Nat)
  | truncated (offset : Nat) (op : Opcode)
  deriving DecidableEq, Repr

namespace Item

def offset : Item → Nat
  | instruction offset _ _ | unknown offset _ | truncated offset _ => offset

/-- The code words the item was read from. -/
def words : Item → List Nat
  | instruction _ op operand => op.word :: operand.toList
  | unknown _ word => [word]
  | truncated _ op => [op.word]

theorem length_words_pos (item : Item) : 0 < item.words.length := by
  cases item <;> simp [words]

end Item

/-- The item at offset `pos` of a range that ends at `stop`; none outside the code. -/
def itemAt? (code : Array Nat) (pos stop : Nat) : Option Item := do
  let word ← code[pos]?
  match Opcode.ofWord? word with
  | none => some (.unknown pos word)
  | some op =>
    if op.operandCount = 0 then some (.instruction pos op none)
    else if pos + 1 < stop then
      let operand ← code[pos + 1]?
      some (.instruction pos op (some operand))
    else some (.truncated pos op)

/-- The items from offset `pos` up to `stop`. -/
def itemsFrom (code : Array Nat) (pos stop : Nat) : List Item :=
  if pos < stop then
    match itemAt? code pos stop with
    | none => []
    | some item => item :: itemsFrom code (pos + item.words.length) stop
  else []
termination_by stop - pos
decreasing_by
  have := item.length_words_pos
  omega

/-- The items of a range, cut off at the end of the code. -/
def Program.items (p : Program) (r : Range) : List Item :=
  itemsFrom p.code r.start (min r.stop p.code.size)

end BlockMachine
