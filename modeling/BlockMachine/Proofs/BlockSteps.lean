import BlockMachine.Machine.Step

/-! # Steps inside a block

A step of the machine has two parts: what the instruction does in its block, which no other frame
has a say in, and what becomes of the frames.

* `Program.blockStep` — what the instruction at an offset of a block does;
* `handBack` — what becomes of the frames below when a block ends;
* `State.follow`, `step_eq` — a step of the machine as the two parts together.
-/

namespace BlockMachine

/-! ## Instructions -/

/-- What an instruction does in its block: it goes on at another offset with a changed stack, calls
a block and goes on afterwards, or ends the evaluation of the block. -/
inductive BlockStep
  | next (ip : Nat) (stack : Stack)
  | call (callee : Range) (ip : Nat)
  | stop (result : Result) (stack : Stack)

namespace BlockStep

def perform (operation : StackM Unit) (stack : Stack) (ip : Nat) : BlockStep :=
  match operation.run stack with
  | (.ok (), stack) => next ip stack
  | (.error f, stack) => stop (.error f) stack

def fault (f : Fault) (stack : Stack) : BlockStep :=
  stop (.error f) stack

end BlockStep

namespace Program

/-- Reads the operand word at an offset, which has to lie in the block. -/
def operandStep (p : Program) (range : Range) (offset : Nat) (stack : Stack)
    (next : Nat → BlockStep) : BlockStep :=
  if offset < range.stop then
    match p.code[offset]? with
    | some word => next word
    | none => .fault (.invalidCounter offset) stack
  else .fault (.invalidCounter offset) stack

def pushStep (p : Program) (stack : Stack) (index ip : Nat) : BlockStep :=
  match p.constants[index]? with
  | none => .fault (.invalidConstant index) stack
  | some v => .perform (Stack.push v) stack ip

def popStep (p : Program) (stack : Stack) (index ip : Nat) : BlockStep :=
  match p.constants[index]? with
  | none => .fault (.invalidConstant index) stack
  | some (.label _) => .fault .labelCount stack
  | some (.integer n) => .perform (Stack.popCounted n) stack ip

def callStep (p : Program) (stack : Stack) (index ip : Nat) : BlockStep :=
  match p.blocks[index]? with
  | none => .fault (.invalidBlock index) stack
  | some callee => if p.covers callee then .call callee ip else .fault (.invalidRange callee) stack

end Program

namespace Range

def jumpStep (range : Range) (condition : Condition) (stack : Stack) (target ip : Nat) :
    BlockStep :=
  match condition.test.run stack with
  | (.error f, _) => .fault f stack
  | (.ok false, _) => .next ip stack
  | (.ok true, _) =>
    if range.start ≤ target ∧ target ≤ range.stop then .next target stack
    else .fault (.invalidCounter target) stack

end Range

def retStep (stack : Stack) : BlockStep :=
  match Stack.pop.run stack with
  | (.ok v, stack) => .stop (.ok (some v)) stack
  | (.error f, stack) => .stop (.error f) stack

/-- What an instruction does whose opcode stands at an offset of a block. -/
def Program.opcodeStep (p : Program) (range : Range) (ip : Nat) (stack : Stack) :
    Opcode → BlockStep
  | .act action => .perform action.apply stack (ip + 1)
  | .ret => retStep stack
  | .push => p.operandStep range (ip + 1) stack fun index => p.pushStep stack index (ip + 2)
  | .popN => p.operandStep range (ip + 1) stack fun index => p.popStep stack index (ip + 2)
  | .jump condition =>
    p.operandStep range (ip + 1) stack fun target => range.jumpStep condition stack target (ip + 2)
  | .call => p.operandStep range (ip + 1) stack fun index => p.callStep stack index (ip + 2)

def Program.blockStep (p : Program) (range : Range) (ip : Nat) (stack : Stack) : BlockStep :=
  if range.stop ≤ ip then .stop (.ok none) stack
  else
    match p.code[ip]? with
    | none => .fault (.invalidCounter ip) stack
    | some word =>
      match Opcode.ofWord? word with
      | none => .fault (.unknownOpcode word ip) stack
      | some op => p.opcodeStep range ip stack op

/-- What a block that has been called leaves for the block that called it. -/
def handOver : Option Value → StackM Unit
  | some v => Stack.push v
  | none => pure ()

/-! ## Frames -/

/-- The innermost block has ended with a result, which goes to the frames below. -/
def handBack (result : Result) (stack : Stack) (callers : List Frame) : Transition :=
  match result, callers with
  | .error f, _ => .stop (.error f) stack
  | .ok value, [] => .stop (.ok value) stack
  | .ok value, caller :: callers =>
    match (handOver value).run stack with
    | (.ok (), stack) => .next ⟨stack, caller, callers⟩
    | (.error f, stack) => .stop (.error f) stack

namespace State

def follow (s : State) (maxCallDepth : Nat) : BlockStep → Transition
  | .next ip stack => .next ⟨stack, { s.frame with ip }, s.callers⟩
  | .stop result stack => handBack result stack s.callers
  | .call callee ip =>
    if maxCallDepth ≤ s.frame.depth then s.fault (.callDepth maxCallDepth)
    else .next ⟨s.stack, .enter callee (s.frame.depth + 1), { s.frame with ip } :: s.callers⟩

variable {p : Program} {maxCallDepth : Nat} {s : State}

theorem perform_eq (operation : StackM Unit) (ip : Nat) :
    s.perform operation ip = s.follow maxCallDepth (.perform operation s.stack ip) := by
  simp only [BlockStep.perform]
  cases hrun : operation.run s.stack with
  | mk r left =>
    cases r with
    | ok u => rw [perform_of_ok hrun]; rfl
    | error f => rw [perform_of_error hrun]; rfl

theorem leave_eq : s.leave = s.follow maxCallDepth (.stop (.ok none) s.stack) := by
  obtain ⟨stack, frame, callers⟩ := s
  cases callers with
  | nil => rfl
  | cons caller callers => rfl

theorem giveBack_eq : s.giveBack = s.follow maxCallDepth (retStep s.stack) := by
  obtain ⟨stack, frame, callers⟩ := s
  simp only [giveBack, retStep]
  cases hrun : Stack.pop.run stack with
  | mk r left =>
    cases r with
    | error f => rfl
    | ok v =>
      cases callers with
      | nil => rfl
      | cons caller callers => rfl

theorem jumpWhen_eq (condition : Condition) (target ip : Nat) :
    s.jumpWhen condition target ip =
      s.follow maxCallDepth (s.frame.range.jumpStep condition s.stack target ip) := by
  simp only [jumpWhen, Range.jumpStep]
  cases condition.test.run s.stack with
  | mk r left =>
    cases r with
    | error f => rfl
    | ok taken =>
      cases taken with
      | false => rfl
      | true =>
        simp only [jump, if_true]
        split
        · rfl
        · rfl

theorem pushConstant_eq (index ip : Nat) :
    s.pushConstant p index ip = s.follow maxCallDepth (p.pushStep s.stack index ip) := by
  simp only [pushConstant, Program.pushStep]
  cases p.constants[index]? with
  | none => rfl
  | some v => exact perform_eq _ _

theorem popConstant_eq (index ip : Nat) :
    s.popConstant p index ip = s.follow maxCallDepth (p.popStep s.stack index ip) := by
  simp only [popConstant, Program.popStep]
  cases p.constants[index]? with
  | none => rfl
  | some v =>
    cases v with
    | label name => rfl
    | integer n => exact perform_eq _ _

theorem call_eq (index ip : Nat) :
    s.call p maxCallDepth index ip = s.follow maxCallDepth (p.callStep s.stack index ip) := by
  simp only [call, Program.callStep]
  cases p.blocks[index]? with
  | none => rfl
  | some callee =>
    by_cases hcovers : p.covers callee
    · simp only [if_pos hcovers]
      rfl
    · simp only [if_neg hcovers]
      rfl

theorem operand_eq {offset : Nat} {next : Nat → Transition} {next' : Nat → BlockStep}
    (hnext : ∀ word, next word = s.follow maxCallDepth (next' word)) :
    s.operand p offset next =
      s.follow maxCallDepth (p.operandStep s.frame.range offset s.stack next') := by
  simp only [operand, Program.operandStep]
  split
  · cases p.code[offset]? with
    | none => rfl
    | some word => exact hnext word
  · rfl

theorem execute_eq (op : Opcode) :
    s.execute p maxCallDepth op =
      s.follow maxCallDepth (p.opcodeStep s.frame.range s.frame.ip s.stack op) := by
  cases op with
  | act action => exact perform_eq _ _
  | ret => exact giveBack_eq
  | push => exact operand_eq fun index => pushConstant_eq index _
  | popN => exact operand_eq fun index => popConstant_eq index _
  | jump condition => exact operand_eq fun target => jumpWhen_eq condition target _
  | call => exact operand_eq fun index => call_eq index _

end State

theorem step_eq (p : Program) (maxCallDepth : Nat) (s : State) :
    step p maxCallDepth s =
      s.follow maxCallDepth (p.blockStep s.frame.range s.frame.ip s.stack) := by
  simp only [step, Program.blockStep]
  split
  · exact State.leave_eq
  · cases p.code[s.frame.ip]? with
    | none => rfl
    | some word =>
      simp only
      cases Opcode.ofWord? word with
      | none => rfl
      | some op => exact State.execute_eq op

end BlockMachine
