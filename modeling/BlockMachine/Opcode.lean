import BlockMachine.Arithmetic

/-! # Opcodes

The instructions of the machine.  Most act on the operand stack alone (`Action`); the others move
control or name a constant, a block or a code offset by one operand word.

* `Opcode.word`, `Opcode.ofWord?` — the code word of an opcode and back;
* `Opcode.operand?` — what its operand word names, if it takes one;
* `Opcode.width` — the number of code words it takes.
-/

namespace BlockMachine

/-- What an instruction without operand does to the operand stack. -/
inductive Action
  | pop
  | dup
  | inc
  | dec
  | arith (op : Arith)
  | logic (op : Logic)
  | not
  deriving DecidableEq, Repr

inductive Condition
  | always
  | zero
  | nonzero
  deriving DecidableEq, Repr

/-- Whether a jump with this condition is taken when `v` is on top of the stack.  A label is
neither zero nor different from zero. -/
def Condition.holds : Condition → Value → Bool
  | always, _ => true
  | zero, .integer n => n == 0
  | nonzero, .integer n => n != 0
  | _, .label _ => false

inductive Opcode
  | ret
  | call
  | push
  | popN
  | jump (condition : Condition)
  | act (action : Action)
  deriving DecidableEq, Repr

/-- What the operand word of an instruction names. -/
inductive OperandKind
  | constant
  | block
  | offset
  deriving DecidableEq, Repr

namespace Opcode

/-- All opcodes, in the order of their code words. -/
def all : List Opcode :=
  [ ret, call, push, act .pop, popN, jump .always, jump .zero, jump .nonzero,
    act .dup, act .inc, act .dec,
    act (.arith .add), act (.arith .sub), act (.arith .mul), act (.arith .div),
    act (.logic .and), act (.logic .or), act (.logic .xor), act .not ]

def word : Opcode → Nat
  | ret => 0
  | call => 1
  | push => 2
  | act .pop => 3
  | popN => 4
  | jump .always => 5
  | jump .zero => 6
  | jump .nonzero => 7
  | act .dup => 8
  | act .inc => 9
  | act .dec => 10
  | act (.arith .add) => 11
  | act (.arith .sub) => 12
  | act (.arith .mul) => 13
  | act (.arith .div) => 14
  | act (.logic .and) => 15
  | act (.logic .or) => 16
  | act (.logic .xor) => 17
  | act .not => 18

def ofWord? (w : Nat) : Option Opcode :=
  all[w]?

@[simp] theorem ofWord?_word (op : Opcode) : ofWord? op.word = some op := by
  rcases op with _ | _ | _ | _ | (_ | _ | _) | (_ | _ | _ | _ | (_ | _ | _ | _) | (_ | _ | _) | _)
    <;> rfl

/-- A known word is the word of its opcode, and no other. -/
theorem word_of_ofWord? {w : Nat} {op : Opcode} (h : ofWord? w = some op) : op.word = w := by
  have hw : w < all.length := (List.getElem?_eq_some_iff.1 h).1
  have hall : ∀ i : Fin all.length, (all.get i).word = i.val := by decide
  obtain ⟨hlt, hget⟩ := List.getElem?_eq_some_iff.1 h
  exact hget ▸ hall ⟨w, hw⟩

/-- What the operand word names; none for an opcode without operand. -/
def operand? : Opcode → Option OperandKind
  | push | popN => some .constant
  | call => some .block
  | jump _ => some .offset
  | ret | act _ => none

def operandCount (op : Opcode) : Nat :=
  if op.operand?.isSome then 1 else 0

def width (op : Opcode) : Nat :=
  1 + op.operandCount

/-- The opcode as written in listings and in source text. -/
def text : Opcode → String
  | ret => "RET"
  | call => "CALL"
  | push => "PUSH"
  | act .pop => "POP"
  | popN => "POP_N"
  | jump .always => "JMP"
  | jump .zero => "JEZ"
  | jump .nonzero => "JNZ"
  | act .dup => "DUP"
  | act .inc => "INC"
  | act .dec => "DEC"
  | act (.arith .add) => "ADD"
  | act (.arith .sub) => "SUB"
  | act (.arith .mul) => "MUL"
  | act (.arith .div) => "DIV"
  | act (.logic .and) => "AND"
  | act (.logic .or) => "OR"
  | act (.logic .xor) => "XOR"
  | act .not => "NOT"

end Opcode

end BlockMachine
