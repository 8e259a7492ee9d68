import BlockMachine.Value

/-! # Exact arithmetic

The four arithmetic operations give the mathematical result or none at all: a result that does
not fit in 32 bits is refused, never wrapped.  Division drops the fraction, so it rounds toward
zero; that the divisor is not zero is for the caller to see to.

* `Arith.exact` — the operation on mathematical integers;
* `Arith.eval?` — the operation on 32-bit integers;
* `Logic.eval` — the connectives, which read every number but zero as true.
-/

namespace BlockMachine

inductive Arith
  | add
  | sub
  | mul
  | div
  deriving DecidableEq, Repr

namespace Arith

def symbol : Arith → String
  | add => "+"
  | sub => "-"
  | mul => "*"
  | div => "/"

/-- The operation on mathematical integers; division rounds toward zero. -/
def exact : Arith → Int → Int → Int
  | add, a, b => a + b
  | sub, a, b => a - b
  | mul, a, b => a * b
  | div, a, b => a.tdiv b

/-- The operation on 32-bit integers; none when the exact result does not fit. -/
def eval? (op : Arith) (a b : Int32) : Option Int32 :=
  fit? (op.exact a.toInt b.toInt)

end Arith

inductive Logic
  | and
  | or
  | xor
  deriving DecidableEq, Repr

/-- The connectives on integers.  `xor` compares its operands as numbers: it is true of any two
different ones. -/
def Logic.eval : Logic → Int32 → Int32 → Bool
  | and, a, b => a != 0 && b != 0
  | or, a, b => a != 0 || b != 0
  | xor, a, b => a != b

end BlockMachine
