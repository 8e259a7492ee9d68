import BlockMachine.Log
import BlockMachine.Machine

/-! # The journal of a run

What a run writes to the log: that it starts and how it ends, every call, and, when tracing, every
instruction with the stack it meets and every change it makes to the stack.  The journal is read
off the states of the run and has no influence on it.
-/

namespace BlockMachine

namespace Opcode

/-- How many values an instruction takes from the stack one by one. -/
def pops : Opcode → Nat
  | ret | act .pop | act .not => 1
  | act (.arith _) | act (.logic _) => 2
  | _ => 0

/-- Whether an instruction that succeeds ends with putting a value on the stack. -/
def pushes : Opcode → Bool
  | push | ret | act .dup | act (.arith _) | act (.logic _) | act .not => true
  | _ => false

end Opcode

namespace Journal

open Log (Entry)

def pushed (stack : Stack) : List Entry :=
  match stack.values.back? with
  | some v => [⟨.trace, "push", [("value", v.text), .nat "depth" stack.depth]⟩]
  | none => []

/-- Up to `count` values, given from the top, are taken from a stack of the given depth.  A label
is the last one to be taken. -/
def popped : (count : Nat) → List Value → (depth : Nat) → List Entry
  | count + 1, v :: rest, depth =>
    ⟨.trace, "pop", [("value", v.text), .nat "depth" (depth - 1)]⟩ ::
      if v.integer?.isSome then popped count rest (depth - 1) else []
  | _, _, _ => []

def executed (s : State) (op : Opcode) : Entry :=
  ⟨.trace, "execute",
    [.nat "offset" s.frame.ip, ("op", op.text), .nat "depth" s.frame.depth,
      ("stack", Value.debugList s.stack.values.toList)]⟩

/-- The changes that an instruction made to the stack. -/
def changes (s : State) (op : Opcode) (t : Transition) : List Entry :=
  popped op.pops s.stack.values.toList.reverse s.stack.depth ++
    match t with
    | .stop _ _ => []
    | .next after =>
      if op.pushes then pushed after.stack
      else if op = .popN then
        [⟨.trace, "pop_n",
          [.nat "count" (s.stack.depth - after.stack.depth), .nat "depth" after.stack.depth]⟩]
      else []

/-- The call that an instruction made. -/
def called (s : State) (op : Opcode) (t : Transition) : List Entry :=
  match op, t with
  | .call, .next after =>
    let r := after.frame.range
    [⟨.debug, "call", [.nat "begin" r.start, .nat "end" r.stop, .nat "depth" s.frame.depth]⟩]
  | _, _ => []

def ofStep (p : Program) (tracing : Bool) (s : State) (t : Transition) : List Entry :=
  if s.frame.range.stop ≤ s.frame.ip then []
  else
    match p.code[s.frame.ip]? >>= Opcode.ofWord? with
    | none => []
    | some op => (if tracing then executed s op :: changes s op t else []) ++ called s op t

/-- What the steps of a run write, behind what has been written before. -/
def ofSteps (p : Program) (maxCallDepth : Nat) (tracing : Bool) :
    (fuel : Nat) → State → Array Entry → Array Entry
  | 0, _, entries => entries
  | fuel + 1, s, entries =>
    let t := step p maxCallDepth s
    let entries := entries.appendList (ofStep p tracing s t)
    match t with
    | .next s => ofSteps p maxCallDepth tracing fuel s entries
    | .stop _ _ => entries

def ofRun (m : Machine) (tracing : Bool) (fuel : Nat) : List Entry :=
  match m.program.entry? with
  | none => []
  | some r =>
    let m := m.clear
    let steps :=
      match m.start r with
      | .error _ => #[]
      | .ok s => ofSteps m.program m.maxCallDepth tracing fuel s #[]
    let finish : List Entry :=
      match m.run fuel with
      | .stopped (.ok v) stack =>
        [⟨.debug, "run finished",
          [("result", Value.debugResult v), .nat "stack_depth" stack.depth]⟩]
      | _ => []
    ⟨.debug, "running entry block", [.nat "begin" r.start, .nat "end" r.stop]⟩ ::
      steps.toList ++ finish

end Journal

end BlockMachine
