import BlockMachine.Opcode

/-! # Mnemonics

The keywords of the source language: one for each opcode, and two that give no code, `END` to close
a block and `MARK` to name a place in it.  A keyword may be written in any letter case.
-/

namespace BlockMachine

inductive Mnemonic
  | op (opcode : Opcode)
  | endBlock
  | mark
  deriving DecidableEq, Repr

namespace Mnemonic

def all : List Mnemonic :=
  Opcode.all.map op ++ [endBlock, mark]

def text : Mnemonic → String
  | op opcode => opcode.text
  | endBlock => "END"
  | mark => "MARK"

/-- The keyword that a word spells, if it does. -/
def ofWord? (word : String) : Option Mnemonic :=
  all.find? fun m => m.text == word.toUpper

/-- The opcode of a keyword; none for those that give no code. -/
def opcode? : Mnemonic → Option Opcode
  | op opcode => some opcode
  | endBlock | mark => none

/-- What stands behind a keyword in source text. -/
inductive Operand
  | nothing
  | number
  | name
  deriving DecidableEq, Repr

def operand : Mnemonic → Operand
  | mark => .name
  | endBlock => .nothing
  | op opcode =>
    match opcode.operand? with
    | none => .nothing
    | some .constant => .number
    | some .block | some .offset => .name

end Mnemonic

end BlockMachine
