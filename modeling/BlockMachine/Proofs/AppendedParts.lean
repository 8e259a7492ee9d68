import BlockMachine.Proofs.ForwardJumps
import BlockMachine.Proofs.WiderLimits

/-! # Programs with more parts

Words, constants and blocks may be put behind those that a program has.  A call that has stopped,
and not because it missed a part, does not notice them: it takes the same steps to the same answer.

A constant or a block that is there keeps its index, and a block that can be entered keeps its
words.  What lies behind the end of a block is never read, so nothing else depends on where the
code ends.

* `Program.Extends` — a program has the parts of another one in front of its own;
* `Fault.isMissing` — the faults that tell of a part that is not there;
* `BlockStep.Stable`, `Transition.Stable` — a step of the larger program is the same, unless the
  smaller one misses a part;
* `step_stable`, `State.run_stable` — single steps and whole runs.
-/

namespace BlockMachine

/-- The constant, the block or the code range that is asked for is not there. -/
def Fault.isMissing : Fault → Bool
  | invalidConstant _ | invalidBlock _ | invalidRange _ => true
  | _ => false

def missesPart : Result → Bool
  | .ok _ => false
  | .error f => f.isMissing

/-! ## Larger programs -/

namespace Program

/-- The parts of `p` stand in front of other parts in `p'`. -/
structure Extends (p' p : Program) : Prop where
  size_le : p.code.size ≤ p'.code.size
  code : ∀ i < p.code.size, p'.code[i]? = p.code[i]?
  constants : ∀ i < p.constants.size, p'.constants[i]? = p.constants[i]?
  blocks : ∀ i < p.blocks.size, p'.blocks[i]? = p.blocks[i]?

/-- A program with more words, constants and blocks. -/
def append (p : Program) (code : Array Nat) (constants : Array Value) (blocks : Array Range) :
    Program :=
  ⟨p.code ++ code, p.constants ++ constants, p.blocks ++ blocks⟩

theorem append_extends (p : Program) (code : Array Nat) (constants : Array Value)
    (blocks : Array Range) : (p.append code constants blocks).Extends p where
  size_le := by simp [append]
  code i hi := Array.getElem?_append_left hi
  constants i hi := Array.getElem?_append_left hi
  blocks i hi := Array.getElem?_append_left hi

variable {p p' : Program}

theorem Extends.constant_eq (h : p'.Extends p) {i : Nat} {v : Value}
    (hv : p.constants[i]? = some v) : p'.constants[i]? = some v :=
  (h.constants i (Array.getElem?_eq_some_iff.1 hv).1).trans hv

theorem Extends.block_eq (h : p'.Extends p) {i : Nat} {r : Range} (hr : p.blocks[i]? = some r) :
    p'.blocks[i]? = some r :=
  (h.blocks i (Array.getElem?_eq_some_iff.1 hr).1).trans hr

theorem Extends.covers (h : p'.Extends p) {r : Range} (hcovers : p.covers r) : p'.covers r := by
  obtain ⟨hrange, hcode⟩ := covers_iff.1 hcovers
  exact covers_iff.2 ⟨hrange, Nat.le_trans hcode h.size_le⟩

end Program

/-! ## Steps inside a block -/

/-- The second step is the same as the first one, which goes on in the code of `p`; unless the
first one misses a part. -/
inductive BlockStep.Stable (p : Program) : BlockStep → BlockStep → Prop
  | next {ip : Nat} {stack : Stack} : Stable p (.next ip stack) (.next ip stack)
  | call {callee : Range} {ip : Nat} (h : p.covers callee) :
      Stable p (.call callee ip) (.call callee ip)
  | stop {result : Result} {stack : Stack} : Stable p (.stop result stack) (.stop result stack)
  | missing {f : Fault} {stack : Stack} {other : BlockStep} (h : f.isMissing) :
      Stable p (.stop (.error f) stack) other

section

variable {p p' : Program} {range : Range} {stack : Stack}

theorem BlockStep.perform_stable (operation : StackM Unit) (ip : Nat) :
    Stable p (perform operation stack ip) (perform operation stack ip) := by
  rw [perform]
  split
  · exact .next
  · exact .stop

open BlockStep (Stable perform_stable)

theorem retStep_stable : Stable p (retStep stack) (retStep stack) := by
  rw [retStep]
  split
  · exact .stop
  · exact .stop

theorem Range.jumpStep_stable (condition : Condition) (target ip : Nat) :
    Stable p (range.jumpStep condition stack target ip)
      (range.jumpStep condition stack target ip) := by
  rw [jumpStep]
  split
  · exact .stop
  · exact .next
  · split
    · exact .next
    · exact .stop

namespace Program

variable (h : p'.Extends p)

include h

theorem pushStep_stable (index ip : Nat) :
    Stable p (p.pushStep stack index ip) (p'.pushStep stack index ip) := by
  rw [pushStep, pushStep]
  cases hv : p.constants[index]? with
  | none => exact .missing rfl
  | some v =>
    rw [h.constant_eq hv]
    exact perform_stable _ ip

theorem popStep_stable (index ip : Nat) :
    Stable p (p.popStep stack index ip) (p'.popStep stack index ip) := by
  rw [popStep, popStep]
  cases hv : p.constants[index]? with
  | none => exact .missing rfl
  | some v =>
    rw [h.constant_eq hv]
    cases v with
    | label name => exact .stop
    | integer n => exact perform_stable _ ip

theorem callStep_stable (index ip : Nat) :
    Stable p (p.callStep stack index ip) (p'.callStep stack index ip) := by
  rw [callStep, callStep]
  cases hblock : p.blocks[index]? with
  | none => exact .missing rfl
  | some callee =>
    simp only [h.block_eq hblock]
    by_cases hcovers : p.covers callee
    · rw [if_pos hcovers, if_pos (h.covers hcovers)]
      exact .call hcovers
    · rw [if_neg hcovers]
      exact .missing rfl

variable (hstop : range.stop ≤ p.code.size)

include hstop

/-- The operand of an instruction lies in its block, and so in the code of the smaller program. -/
theorem operandStep_stable (offset : Nat) {next next' : Nat → BlockStep}
    (hnext : ∀ word, Stable p (next word) (next' word)) :
    Stable p (p.operandStep range offset stack next) (p'.operandStep range offset stack next') := by
  rw [operandStep, operandStep]
  by_cases hinside : offset < range.stop
  · rw [if_pos hinside, if_pos hinside, h.code offset (by omega)]
    cases p.code[offset]? with
    | none => exact .stop
    | some word => exact hnext word
  · rw [if_neg hinside, if_neg hinside]
    exact .stop

theorem opcodeStep_stable (ip : Nat) (op : Opcode) :
    Stable p (p.opcodeStep range ip stack op) (p'.opcodeStep range ip stack op) := by
  cases op with
  | act action => exact perform_stable _ _
  | ret => exact retStep_stable
  | push => exact operandStep_stable h hstop _ fun index => pushStep_stable h index _
  | popN => exact operandStep_stable h hstop _ fun index => popStep_stable h index _
  | jump condition =>
    exact operandStep_stable h hstop _ fun target => Range.jumpStep_stable condition target _
  | call => exact operandStep_stable h hstop _ fun index => callStep_stable h index _

theorem blockStep_stable (ip : Nat) :
    Stable p (p.blockStep range ip stack) (p'.blockStep range ip stack) := by
  rw [blockStep, blockStep]
  by_cases hend : range.stop ≤ ip
  · rw [if_pos hend, if_pos hend]
    exact .stop
  · rw [if_neg hend, if_neg hend, h.code ip (by omega)]
    cases p.code[ip]? with
    | none => exact .stop
    | some word =>
      simp only
      cases Opcode.ofWord? word with
      | none => exact .stop
      | some op => exact opcodeStep_stable h hstop ip op

end Program

end

/-! ## Steps and runs -/

/-- All blocks that are being executed lie in the code. -/
def State.InCode (p : Program) (s : State) : Prop :=
  ∀ f ∈ s.frames, f.range.stop ≤ p.code.size

inductive Transition.Stable (p : Program) : Transition → Transition → Prop
  | next {s : State} (h : s.InCode p) : Stable p (.next s) (.next s)
  | stop {result : Result} {stack : Stack} : Stable p (.stop result stack) (.stop result stack)
  | missing {f : Fault} {stack : Stack} {other : Transition} (h : f.isMissing) :
      Stable p (.stop (.error f) stack) other

section

variable {p p' : Program} {maxCallDepth : Nat} {s : State}

theorem handBack_stable (hcode : s.InCode p) (result : Result) (stack : Stack) :
    Transition.Stable p (handBack result stack s.callers) (handBack result stack s.callers) := by
  cases hback : handBack result stack s.callers with
  | stop result stack => exact .stop
  | next s' =>
    refine .next fun f hf => hcode f ?_
    rw [frames_of_handBack hback] at hf
    exact List.mem_cons_of_mem _ hf

namespace State

theorem InCode.move (hcode : s.InCode p) (stack : Stack) (ip : Nat) :
    (⟨stack, { s.frame with ip }, s.callers⟩ : State).InCode p := by
  intro f hf
  cases hf with
  | head => exact hcode s.frame List.mem_cons_self
  | tail _ hf => exact hcode f (List.mem_cons_of_mem _ hf)

theorem InCode.enter (hcode : s.InCode p) {callee : Range} (hcovers : p.covers callee)
    (depth ip : Nat) :
    (⟨s.stack, .enter callee depth, { s.frame with ip } :: s.callers⟩ : State).InCode p := by
  intro f hf
  cases hf with
  | head => exact (Program.covers_iff.1 hcovers).2
  | tail _ hf => exact hcode.move s.stack ip f hf

theorem follow_stable (hcode : s.InCode p) {b b' : BlockStep} (h : b.Stable p b') :
    Transition.Stable p (s.follow maxCallDepth b) (s.follow maxCallDepth b') := by
  cases h with
  | @next ip stack => exact .next (hcode.move stack ip)
  | @stop result stack => exact handBack_stable hcode result stack
  | missing hmissing => exact .missing hmissing
  | @call callee ip hcovers =>
    simp only [follow]
    by_cases hdepth : maxCallDepth ≤ s.frame.depth
    · rw [if_pos hdepth]
      exact .stop
    · rw [if_neg hdepth]
      exact .next (hcode.enter hcovers _ ip)

end State

theorem step_stable (h : p'.Extends p) (hcode : s.InCode p) :
    Transition.Stable p (step p maxCallDepth s) (step p' maxCallDepth s) := by
  rw [step_eq, step_eq]
  have hstop : s.frame.range.stop ≤ p.code.size := hcode s.frame List.mem_cons_self
  exact State.follow_stable hcode (Program.blockStep_stable h hstop s.frame.ip)

theorem State.run_stable (h : p'.Extends p) {result : Result} (hfound : missesPart result = false)
    {left : Stack} {fuel : Nat} (hcode : s.InCode p)
    (hrun : s.run p maxCallDepth fuel = .stopped result left) :
    s.run p' maxCallDepth fuel = .stopped result left := by
  -- Both runs go through the same states, so the blocks of each state lie in the smaller code.
  induction fuel generalizing s with
  | zero => cases hrun
  | succ fuel ih =>
    have hstep : Transition.Stable p (step p maxCallDepth s) (step p' maxCallDepth s) :=
      step_stable h hcode
    rw [run] at hrun ⊢
    generalize step p maxCallDepth s = t at hstep hrun
    generalize step p' maxCallDepth s = t' at hstep
    cases hstep with
    | next hcode' => exact ih hcode' hrun
    | stop => exact hrun
    | missing hmissing =>
      cases hrun
      simp [missesPart, hmissing] at hfound

/-! ## Calls -/

theorem Machine.execute_stable (h : p'.Extends p) {result : Result}
    (hfound : missesPart result = false) {stack left : Stack} {fuel : Nat} {r : Range}
    (hrun : (Machine.mk p maxCallDepth stack).execute fuel r = .stopped result left) :
    (Machine.mk p' maxCallDepth stack).execute fuel r = .stopped result left := by
  simp only [execute, start] at hrun ⊢
  by_cases hcovers : p.covers r
  · rw [if_pos hcovers] at hrun
    rw [if_pos (h.covers hcovers)]
    by_cases hzero : maxCallDepth = 0
    · rw [if_pos hzero] at hrun ⊢
      exact hrun
    · rw [if_neg hzero] at hrun ⊢
      refine State.run_stable h hfound ?_ hrun
      intro f hf
      cases hf with
      | head => exact (Program.covers_iff.1 hcovers).2
      | tail _ hf => cases hf
  · rw [if_neg hcovers] at hrun
    cases hrun
    cases hfound

end

/-- More words, constants and blocks behind those of a program change nothing about a call that
stops without missing a part: it has the same result and leaves the same stack. -/
theorem answer_stopped_of_appended_parts (p : Program) (hblocks : p.blocks ≠ #[])
    (code : Array Nat) (constants : Array Value) (blocks : Array Range) (limits : Limits)
    (values : Array Value) (c : Call) (fuel : Nat) (result : Result) (left : Stack)
    (hfound : missesPart result = false)
    (hstops : (limits.machine p values).answer fuel c = .stopped result left) :
    (limits.machine (p.append code constants blocks) values).answer fuel c =
      .stopped result left := by
  have hextends := p.append_extends code constants blocks
  cases c with
  | execute r => exact Machine.execute_stable hextends hfound hstops
  | run =>
    -- The entry block is the first one of both tables.
    have hentry : Program.entry? (p.append code constants blocks) = p.entry? :=
      hextends.blocks 0 (Array.size_pos_iff.2 hblocks)
    simp only [Machine.answer, Machine.run, Limits.machine, hentry] at hstops ⊢
    cases hr : p.entry? with
    | none =>
      rw [hr] at hstops
      exact hstops
    | some r =>
      rw [hr] at hstops
      exact Machine.execute_stable hextends hfound hstops

/-- A called block ends with an opcode whose operand would lie behind the code.  When the code goes
on there, the block still ends where it did. -/
theorem answer_stopped_of_appended_parts_cut_off :
    let p : Program := ⟨#[1, 1, 0, 2], #[], #[⟨0, 3⟩, ⟨3, 4⟩]⟩
    let p' : Program := ⟨#[1, 1, 0, 2, 0], #[.integer 7], #[⟨0, 3⟩, ⟨3, 4⟩, ⟨3, 5⟩]⟩
    let limits : Limits := ⟨1, 2⟩
    p.blocks ≠ #[] ∧ p.append #[0] #[.integer 7] #[⟨3, 5⟩] = p' ∧
      (limits.machine p #[]).answer 2 .run = .stopped (.error (.invalidCounter 4)) (.empty 1) ∧
      (limits.machine p' #[]).answer 2 .run = .stopped (.error (.invalidCounter 4)) (.empty 1) := by
  intro p p' limits
  have hblocks : p.blocks ≠ #[] := by simp [p]
  have hstops : (limits.machine p #[]).answer 2 .run =
      .stopped (.error (.invalidCounter 4)) (.empty 1) := rfl
  exact ⟨hblocks, rfl, hstops,
    answer_stopped_of_appended_parts p hblocks #[0] #[.integer 7] #[⟨3, 5⟩] limits #[] .run 2 _ _
      rfl hstops⟩

end BlockMachine
