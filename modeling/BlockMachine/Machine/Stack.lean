import BlockMachine.Machine.Fault

/-! # The operand stack

A stack of values that never holds more than its capacity.  An operation gives a result or a
fault, and in both cases the stack as it is afterwards: a fault leaves the stack alone, except that
a label met where an integer is wanted has been removed.

* `push`, `pop`, `peek`, `setTop`, `popMany`, `popCounted`, `popInteger` — the operations;
* `Condition.test` — whether a jump is taken;
* `Action.apply` — what the instructions without operand do.
-/

namespace BlockMachine

/-- Values, the top one last, and how many of them there may be. -/
structure Stack where
  capacity : Nat
  values : Array Value
  deriving DecidableEq, Repr

/-- An operation on a stack: a result or a fault, and the stack afterwards. -/
abbrev StackM := ExceptT Fault (StateM Stack)

/-- An operation on the stack goes on with the result of another one, or ends with its fault. -/
theorem StackM.run_bind {α β : Type} (x : StackM α) (f : α → StackM β) (s : Stack) :
    (x >>= f).run s =
      match x.run s with
      | (.ok a, s) => (f a).run s
      | (.error e, s) => (.error e, s) := by
  have h : (x >>= f).run s = ExceptT.bindCont f (x.run s).1 (x.run s).2 := rfl
  rw [h]
  cases x.run s with
  | mk r s => cases r <;> rfl

@[simp] theorem StackM.run_pure {α : Type} (a : α) (s : Stack) :
    (pure a : StackM α).run s = (.ok a, s) :=
  rfl

@[simp] theorem StackM.run_throw {α : Type} (f : Fault) (s : Stack) :
    (throw f : StackM α).run s = (.error f, s) :=
  rfl

/-- The number that a 64-bit word stands for when its highest bit counts as the sign. -/
def signedWord (n : Nat) : Int :=
  Int.bmod n UInt64.size

namespace Stack

def empty (capacity : Nat) : Stack :=
  ⟨capacity, #[]⟩

def depth (s : Stack) : Nat :=
  s.values.size

def clear (s : Stack) : Stack :=
  { s with values := #[] }

/-- Puts a value on top, if there is room. -/
def push (v : Value) : StackM Unit := fun s =>
  if s.depth < s.capacity then (.ok (), { s with values := s.values.push v })
  else (.error (.stackOverflow s.capacity), s)

def pop : StackM Value := fun s =>
  match s.values.back? with
  | some v => (.ok v, { s with values := s.values.pop })
  | none => (.error .stackUnderflow, s)

/-- The top value, which stays. -/
def peek : StackM Value := fun s =>
  match s.values.back? with
  | some v => (.ok v, s)
  | none => (.error .stackUnderflow, s)

/-- Replaces the top value; gives the old one. -/
def setTop (v : Value) : StackM Value := fun s =>
  match s.values.back? with
  | some old => (.ok old, { s with values := s.values.pop.push v })
  | none => (.error .stackUnderflow, s)

/-- Removes the top value for `user`, which needs an integer.  A label is removed too. -/
def popInteger (user : String) : StackM Int32 := do
  match ← pop with
  | .integer n => return n
  | .label _ => throw (.labelOperand user)

/-- Removes a number of values at once, if there are so many. -/
def popMany (count : Nat) : StackM Unit := fun s =>
  if count ≤ s.depth then (.ok (), { s with values := s.values.take (s.depth - count) })
  else (.error (.popCount (signedWord count) s.depth), s)

/-- Removes as many values as an integer says; a negative integer is more than there are. -/
def popCounted (n : Int32) : StackM Unit := fun s =>
  if n < 0 then (.error (.popCount n.toInt s.depth), s)
  else popMany n.toInt.toNat s

theorem run_push (v : Value) (s : Stack) :
    (push v).run s =
      if s.depth < s.capacity then (.ok (), { s with values := s.values.push v })
      else (.error (.stackOverflow s.capacity), s) := rfl

theorem run_pop (s : Stack) :
    pop.run s =
      match s.values.back? with
      | some v => (.ok v, { s with values := s.values.pop })
      | none => (.error .stackUnderflow, s) := rfl

theorem run_peek (s : Stack) :
    peek.run s =
      match s.values.back? with
      | some v => (.ok v, s)
      | none => (.error .stackUnderflow, s) := rfl

theorem run_setTop (v : Value) (s : Stack) :
    (setTop v).run s =
      match s.values.back? with
      | some old => (.ok old, { s with values := s.values.pop.push v })
      | none => (.error .stackUnderflow, s) := rfl

theorem run_popMany (count : Nat) (s : Stack) :
    (popMany count).run s =
      if count ≤ s.depth then (.ok (), { s with values := s.values.take (s.depth - count) })
      else (.error (.popCount (signedWord count) s.depth), s) := rfl

theorem run_popCounted (n : Int32) (s : Stack) :
    (popCounted n).run s =
      if n < 0 then (.error (.popCount n.toInt s.depth), s)
      else (popMany n.toInt.toNat).run s := rfl

end Stack

/-- Whether a conditional jump is taken.  A condition on the value on top needs one; the value
stays. -/
def Condition.test : Condition → StackM Bool
  | always => return true
  | c => return c.holds (← Stack.peek)

namespace Action

def text (a : Action) : String :=
  (Opcode.act a).text

/-- Changes the integer on top by one; a label stays as it is. -/
def bump (op : Arith) : StackM Unit := do
  match ← Stack.peek with
  | .integer n =>
    match op.eval? n 1 with
    | some m => discard (Stack.setTop (.integer m))
    | none => throw (.overflow n op 1)
  | .label _ => return ()

/-- Replaces the two integers on top by the result of an operation; the top one is the second
operand. -/
def compute (op : Arith) (user : String) : StackM Unit := do
  let b ← Stack.popInteger user
  let a ← Stack.popInteger user
  if op = .div ∧ b = 0 then throw .divisionByZero
  match op.eval? a b with
  | some c => Stack.push (.integer c)
  | none => throw (.overflow a op b)

/-- Replaces the two integers on top by one or zero. -/
def connect (op : Logic) (user : String) : StackM Unit := do
  let b ← Stack.popInteger user
  let a ← Stack.popInteger user
  Stack.push (.ofBool (op.eval a b))

/-- Replaces the integer on top by one if it is zero, and by zero if not. -/
def negate (user : String) : StackM Unit := do
  let a ← Stack.popInteger user
  Stack.push (.ofBool (a == 0))

/-- What an instruction without operand does to the stack. -/
def apply : Action → StackM Unit
  | pop => discard Stack.pop
  | dup => do Stack.push (← Stack.peek)
  | inc => bump .add
  | dec => bump .sub
  | arith op => compute op (arith op).text
  | logic op => connect op (logic op).text
  | not => negate not.text

end Action

end BlockMachine
