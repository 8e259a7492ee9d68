import BlockMachine.Numeral
import BlockMachine.Program

/-! # Faults

Why a run ends without a result, each cause with what it is about, and its wording.
-/

namespace BlockMachine

inductive Fault
  | stackOverflow (capacity : Nat)
  | stackUnderflow
  | unknownOpcode (word offset : Nat)
  | invalidCounter (offset : Nat)
  | invalidConstant (index : Nat)
  | invalidBlock (index : Nat)
  | invalidRange (range : Range)
  | noEntry
  /-- the instruction `user` needs an integer and met a label -/
  | labelOperand (user : String)
  /-- the constant that counts the values to remove is a label -/
  | labelCount
  | divisionByZero
  | overflow (a : Int32) (op : Arith) (b : Int32)
  | popCount (requested : Int) (depth : Nat)
  | callDepth (limit : Nat)
  deriving DecidableEq, Repr

def Fault.message : Fault → String
  | stackOverflow capacity => s!"Stack overflow: capacity of {capacity} values exceeded"
  | stackUnderflow => "Stack underflow"
  | unknownOpcode word offset =>
    s!"Unknown or unimplemented opcode {Numeral.hex word} at offset {offset}"
  | invalidCounter offset => s!"Invalid program counter: {offset}"
  | invalidConstant index => s!"Invalid constant index: {index}"
  | invalidBlock index => s!"Invalid block index: {index}"
  | invalidRange range => s!"Invalid block range: {range.text}"
  | noEntry => "Program has no entry block"
  | labelOperand user => s!"Type error: {user} expects an integer operand, found label"
  | labelCount => "Type error: Expected integer constant for POP_N, found label"
  | divisionByZero => "Division by zero"
  | overflow a op b => s!"Arithmetic overflow: {a.toInt} {op.symbol} {b.toInt}"
  | popCount requested depth => s!"POP_N argument {requested} exceeds stack size {depth}"
  | callDepth limit => s!"Call depth limit of {limit} exceeded"

end BlockMachine
