import BlockMachine.Machine.Stack

/-! # Steps of the machine

A running machine has an operand stack and a stack of frames, one for each block that is being
executed.  One step executes one instruction of the innermost frame, or leaves it when it has
reached its end.

* `step` — the next state, or how the run stops;
* `State.run` — steps until the run stops or the fuel is used up.

A block that runs off its end gives nothing back; `RET` gives back the value on top.  The value
tested by a conditional jump stays on the stack.
-/

namespace BlockMachine

/-- A block that is being executed: the offset of the next instruction, the code range of the
block, and how many frames there are up to and with this one. -/
structure Frame where
  ip : Nat
  range : Range
  depth : Nat
  deriving DecidableEq, Repr

/-- A running machine: its operand stack, the innermost frame and the frames below it. -/
structure State where
  stack : Stack
  frame : Frame
  callers : List Frame
  deriving DecidableEq, Repr

/-- What a run gives in the end: a value or nothing, or the fault that ended it. -/
abbrev Result := Except Fault (Option Value)

inductive Transition
  | next (state : State)
  | stop (result : Result) (stack : Stack)
  deriving Repr

/-- How a run with limited fuel ends. -/
inductive Outcome
  | stopped (result : Result) (stack : Stack)
  | outOfFuel
  deriving Repr

def Frame.enter (range : Range) (depth : Nat) : Frame :=
  ⟨range.start, range, depth⟩

/-- Whether a range can be executed: it is not reversed and ends inside the code. -/
def Program.covers (p : Program) (r : Range) : Bool :=
  r.start ≤ r.stop && r.stop ≤ p.code.size

namespace State

/-- The run stops with a fault; the stack stays as it is. -/
def fault (s : State) (f : Fault) : Transition :=
  .stop (.error f) s.stack

/-- Control goes to an offset of the current block. -/
def goto (s : State) (ip : Nat) : State :=
  { s with frame := { s.frame with ip } }

/-- Carries out a stack operation and goes on at offset `ip`, or stops with its fault. -/
def perform : State → StackM Unit → (ip : Nat) → Transition
  | ⟨stack, frame, callers⟩, operation, ip =>
    match operation.run stack with
    | (.ok (), stack) => .next ⟨stack, { frame with ip }, callers⟩
    | (.error f, stack) => .stop (.error f) stack

theorem perform_of_ok {s : State} {operation : StackM Unit} {left : Stack}
    (h : operation.run s.stack = (.ok (), left)) (ip : Nat) :
    s.perform operation ip = .next ⟨left, { s.frame with ip }, s.callers⟩ := by
  simp only [perform, h]

theorem perform_of_error {s : State} {operation : StackM Unit} {f : Fault} {left : Stack}
    (h : operation.run s.stack = (.error f, left)) (ip : Nat) :
    s.perform operation ip = .stop (.error f) left := by
  simp only [perform, h]

/-- Leaves the innermost block without a value. -/
def leave (s : State) : Transition :=
  match s.callers with
  | [] => .stop (.ok none) s.stack
  | frame :: callers => .next { s with frame, callers }

/-- Leaves the innermost block with the value on top of the stack: it is the result of the run, or
it goes back on the stack for the block below. -/
def giveBack : State → Transition
  | ⟨stack, _, callers⟩ =>
    match Stack.pop.run stack with
    | (.error f, stack) => .stop (.error f) stack
    | (.ok v, stack) =>
      match callers with
      | [] => .stop (.ok (some v)) stack
      -- There is room: the value has just been taken from the same stack.
      | frame :: callers =>
        match (Stack.push v).run stack with
        | (.ok (), stack) => .next ⟨stack, frame, callers⟩
        | (.error f, stack) => .stop (.error f) stack

theorem giveBack_of_error {s : State} {f : Fault} {left : Stack}
    (h : Stack.pop.run s.stack = (.error f, left)) : s.giveBack = .stop (.error f) left := by
  simp only [giveBack, h]

theorem giveBack_of_last {s : State} {v : Value} {left : Stack}
    (h : Stack.pop.run s.stack = (.ok v, left)) (hlast : s.callers = []) :
    s.giveBack = .stop (.ok (some v)) left := by
  simp only [giveBack, h, hlast]

/-- The value goes back on the stack it was taken from, as any other value would. -/
theorem giveBack_of_caller {s : State} {v : Value} {left : Stack} {frame : Frame}
    {callers : List Frame} (h : Stack.pop.run s.stack = (.ok v, left))
    (hcaller : s.callers = frame :: callers) :
    s.giveBack = (⟨left, frame, callers⟩ : State).perform (Stack.push v) frame.ip := by
  simp only [giveBack, h, hcaller, perform]

/-- Jumps to an offset, which has to lie in the current block or at its end. -/
def jump (s : State) (target : Nat) : Transition :=
  if s.frame.range.start ≤ target ∧ target ≤ s.frame.range.stop then .next (s.goto target)
  else s.fault (.invalidCounter target)

/-- Jumps if the condition holds of the value on top, and else goes on at offset `ip`. -/
def jumpWhen (s : State) (condition : Condition) (target ip : Nat) : Transition :=
  match condition.test.run s.stack with
  | (.error f, _) => s.fault f
  | (.ok taken, _) => if taken then s.jump target else .next (s.goto ip)

def pushConstant (s : State) (p : Program) (index ip : Nat) : Transition :=
  match p.constants[index]? with
  | none => s.fault (.invalidConstant index)
  | some v => s.perform (Stack.push v) ip

/-- Removes as many values as a constant says. -/
def popConstant (s : State) (p : Program) (index ip : Nat) : Transition :=
  match p.constants[index]? with
  | none => s.fault (.invalidConstant index)
  | some (.label _) => s.fault .labelCount
  | some (.integer n) => s.perform (Stack.popCounted n) ip

/-- Enters a block of the table; the current block goes on at offset `ip` afterwards. -/
def call (s : State) (p : Program) (maxCallDepth index ip : Nat) : Transition :=
  match p.blocks[index]? with
  | none => s.fault (.invalidBlock index)
  | some range =>
    if p.covers range then
      if maxCallDepth ≤ s.frame.depth then s.fault (.callDepth maxCallDepth)
      else .next
        { s with
          frame := .enter range (s.frame.depth + 1)
          callers := (s.goto ip).frame :: s.callers }
    else s.fault (.invalidRange range)

/-- Reads the operand word at `offset`, which has to lie in the current block. -/
@[inline] def operand (s : State) (p : Program) (offset : Nat) (next : Nat → Transition) :
    Transition :=
  if offset < s.frame.range.stop then
    match p.code[offset]? with
    | some word => next word
    | none => s.fault (.invalidCounter offset)
  else s.fault (.invalidCounter offset)

theorem operand_of_word {s : State} {p : Program} {offset word : Nat}
    (hinside : offset < s.frame.range.stop) (hword : p.code[offset]? = some word)
    (next : Nat → Transition) : s.operand p offset next = next word := by
  simp only [operand, if_pos hinside, hword]

/-- Executes an instruction whose opcode stands at the current offset. -/
def execute (s : State) (p : Program) (maxCallDepth : Nat) (op : Opcode) : Transition :=
  let ip := s.frame.ip
  match op with
  | .act action => s.perform action.apply (ip + 1)
  | .ret => s.giveBack
  | .push => s.operand p (ip + 1) fun index => s.pushConstant p index (ip + 2)
  | .popN => s.operand p (ip + 1) fun index => s.popConstant p index (ip + 2)
  | .jump condition => s.operand p (ip + 1) fun target => s.jumpWhen condition target (ip + 2)
  | .call => s.operand p (ip + 1) fun index => s.call p maxCallDepth index (ip + 2)

end State

def step (p : Program) (maxCallDepth : Nat) (s : State) : Transition :=
  if s.frame.range.stop ≤ s.frame.ip then s.leave
  else
    match p.code[s.frame.ip]? with
    | none => s.fault (.invalidCounter s.frame.ip)
    | some word =>
      match Opcode.ofWord? word with
      | none => s.fault (.unknownOpcode word s.frame.ip)
      | some op => s.execute p maxCallDepth op

theorem step_eq_execute {p : Program} {maxCallDepth : Nat} {s : State} {op : Opcode}
    (hstop : s.frame.ip < s.frame.range.stop) (hword : p.code[s.frame.ip]? = some op.word) :
    step p maxCallDepth s = s.execute p maxCallDepth op := by
  simp only [step, if_neg (Nat.not_le.2 hstop), hword, Opcode.ofWord?_word]

/-- Runs until the run stops, at most `fuel` steps. -/
def State.run (p : Program) (maxCallDepth : Nat) : (fuel : Nat) → State → Outcome
  | 0, _ => .outOfFuel
  | fuel + 1, s =>
    match step p maxCallDepth s with
    | .next s => State.run p maxCallDepth fuel s
    | .stop result stack => .stopped result stack

end BlockMachine
