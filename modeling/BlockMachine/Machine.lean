import BlockMachine.Machine.Step

/-! # Machines

A machine holds a program, its limits and an operand stack.  It can run its program from the entry
block, on an empty stack, or execute any code range on the stack it has; the stack that is left
stays with it.

Fuel bounds the number of steps, so that running is a total function; a run that stops gives the
same answer for all larger amounts of fuel.
-/

namespace BlockMachine

/-- Bounds on a run: values on the operand stack, and blocks being executed at one time. -/
structure Limits where
  stackCapacity : Nat := 1024
  maxCallDepth : Nat := 512
  deriving DecidableEq, Repr

/-- A program, the greatest number of frames, and the operand stack. -/
structure Machine where
  program : Program
  maxCallDepth : Nat
  stack : Stack
  deriving DecidableEq, Repr

namespace Machine

def new (p : Program) (limits : Limits) : Machine :=
  ⟨p, limits.maxCallDepth, .empty limits.stackCapacity⟩

/-- The state in which executing a range starts. -/
def start (m : Machine) (r : Range) : Except Fault State :=
  if m.program.covers r then
    if m.maxCallDepth = 0 then .error (.callDepth 0)
    else .ok ⟨m.stack, .enter r 1, []⟩
  else .error (.invalidRange r)

def execute (m : Machine) (fuel : Nat) (r : Range) : Outcome :=
  match m.start r with
  | .error f => .stopped (.error f) m.stack
  | .ok s => s.run m.program m.maxCallDepth fuel

def clear (m : Machine) : Machine :=
  { m with stack := m.stack.clear }

/-- Executes the entry block on an empty stack.  Without an entry block the stack is kept. -/
def run (m : Machine) (fuel : Nat) : Outcome :=
  match m.program.entry? with
  | none => .stopped (.error .noEntry) m.stack
  | some r => m.clear.execute fuel r

end Machine

def Program.run (p : Program) (limits : Limits) (fuel : Nat) : Outcome :=
  (Machine.new p limits).run fuel

end BlockMachine
