import BlockMachine.Machine
import BlockMachine.Proofs.Placement
import BlockMachine.Proofs.Runs

/-! # The source machine

What blocks mean before they are assembled.  The source machine executes instructions as written:
it stands in front of an instruction of a block, jumps to marks, calls blocks by their labels and
uses literals themselves.  It knows nothing of code words, constants or the block table.  The
operand stack and the limits are those of the machine.

* `sourceStep` — one step, none where an instruction has no meaning: a name that is not marked or
  no label, an operand of the wrong kind;
* `sourceExecute` — executing the block with a given source index on a stack;
* `sourceRun` — executing the first block with a given label on an empty stack.
-/

namespace BlockMachine

/-- A block by its source index, and how many of its instructions are in front. -/
structure Place where
  block : Nat
  index : Nat
  deriving DecidableEq, Repr

/-- A running source machine: its operand stack, where it stands, and where the callers go on. -/
structure SourceState where
  stack : Stack
  place : Place
  callers : List Place
  deriving DecidableEq, Repr

def Place.next (q : Place) : Place :=
  { q with index := q.index + 1 }

namespace SourceState

def perform (s : SourceState) (operation : StackM Unit) : Phase SourceState :=
  match operation.run s.stack with
  | (.ok (), stack) => .running { s with stack, place := s.place.next }
  | (.error f, stack) => .stopped (.error f) stack

def leave (s : SourceState) : Phase SourceState :=
  match s.callers with
  | [] => .stopped (.ok none) s.stack
  | place :: callers => .running { s with place, callers }

def giveBack (s : SourceState) : Phase SourceState :=
  match Stack.pop.run s.stack with
  | (.error f, stack) => .stopped (.error f) stack
  | (.ok v, stack) =>
    match s.callers with
    | [] => .stopped (.ok (some v)) stack
    | place :: callers =>
      match (Stack.push v).run stack with
      | (.ok (), stack) => .running ⟨stack, place, callers⟩
      | (.error f, stack) => .stopped (.error f) stack

/-- Jumps to an instruction of the current block if the condition holds of the value on top. -/
def jumpWhen (s : SourceState) (condition : Condition) (index : Nat) : Phase SourceState :=
  match condition.test.run s.stack with
  | (.error f, _) => .stopped (.error f) s.stack
  | (.ok true, _) => .running { s with place := { s.place with index } }
  | (.ok false, _) => .running { s with place := s.place.next }

def call (s : SourceState) (maxCallDepth block : Nat) : Phase SourceState :=
  if maxCallDepth ≤ s.callers.length + 1 then .stopped (.error (.callDepth maxCallDepth)) s.stack
  else .running { s with place := ⟨block, 0⟩, callers := s.place.next :: s.callers }

/-- Executes an instruction of the block `b`. -/
def execute (blocks : List FlatBlock) (maxCallDepth : Nat) (b : FlatBlock) (s : SourceState)
    (i : Instruction) : Option (Phase SourceState) :=
  match i.mnemonic, i.operand with
  | .mark, _ => some (.running { s with place := s.place.next })
  | .op .ret, none => some s.giveBack
  | .op (.act action), none => some (s.perform action.apply)
  | .op .push, some (.integer n) => some (s.perform (Stack.push (.integer n)))
  | .op .popN, some (.integer n) => some (s.perform (Stack.popCounted n))
  | .op (.jump condition), some (.label name) =>
    (lastMark? name b.instructions).map (s.jumpWhen condition)
  | .op .call, some (.label name) =>
    (blocks.findIdx? fun b => b.label == name).map (s.call maxCallDepth)
  | _, _ => none

end SourceState

def sourceStep (blocks : List FlatBlock) (maxCallDepth : Nat) (s : SourceState) :
    Option (Phase SourceState) :=
  match blocks[s.place.block]? with
  | none => none
  | some b =>
    match b.instructions[s.place.index]? with
    | none => some s.leave
    | some i => s.execute blocks maxCallDepth b i

section

variable {blocks : List FlatBlock} {maxCallDepth : Nat} {s : SourceState} {b : FlatBlock}

theorem sourceStep_of_end (hb : blocks[s.place.block]? = some b)
    (hend : b.instructions[s.place.index]? = none) :
    sourceStep blocks maxCallDepth s = some s.leave := by
  simp only [sourceStep, hb, hend]

theorem sourceStep_of_instruction {i : Instruction} (hb : blocks[s.place.block]? = some b)
    (hi : b.instructions[s.place.index]? = some i) :
    sourceStep blocks maxCallDepth s = s.execute blocks maxCallDepth b i := by
  simp only [sourceStep, hb, hi]

end

/-- The phase in which executing a block starts: with no frames allowed it has already stopped. -/
def sourceStart (maxCallDepth : Nat) (stack : Stack) (block : Nat) : Phase SourceState :=
  if maxCallDepth = 0 then .stopped (.error (.callDepth 0)) stack
  else .running ⟨stack, ⟨block, 0⟩, []⟩

def sourceExecute (blocks : List FlatBlock) (maxCallDepth : Nat) (stack : Stack) (block : Nat)
    (fuel : Nat) : Outcome :=
  match sourceStart maxCallDepth stack block with
  | .stopped result stack => .stopped result stack
  | .running s => Phase.run (sourceStep blocks maxCallDepth) fuel s

/-- Without a block of that label there is no run, so none that stops. -/
def sourceRun (blocks : List FlatBlock) (entry : String) (limits : Limits) (fuel : Nat) : Outcome :=
  match blocks.findIdx? fun b => b.label == entry with
  | none => .outOfFuel
  | some block => sourceExecute blocks limits.maxCallDepth (.empty limits.stackCapacity) block fuel

end BlockMachine
