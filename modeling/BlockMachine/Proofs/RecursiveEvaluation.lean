import BlockMachine.Machine
import BlockMachine.Proofs.BlockSteps
import BlockMachine.Proofs.Runs

/-! # Frames and recursion

The machine keeps the blocks that are being executed in a stack of frames.  Here a block is
evaluated by recursion instead: a call evaluates the block it enters, and what that block gives
back is at hand when the calling block goes on.  Fuel bounds the recursion, so that evaluation is a
total function.

* `evalFrom`, `evalBlock` — evaluation of a block from an offset and from its start;
* `evalFrom_reaches` — a block that evaluates to a result hands it back in the machine, whatever
  frames are below;
* `evalFrom_of_run` — a block evaluates to some result if the machine stops at all.
-/

namespace BlockMachine

open StateTransition

/-! ## Evaluation -/

def evalFrom (p : Program) (maxCallDepth : Nat) :
    (fuel : Nat) → Range → (depth ip : Nat) → Stack → Outcome
  | 0, _, _, _, _ => .outOfFuel
  | fuel + 1, range, depth, ip, stack =>
    match p.blockStep range ip stack with
    | .next ip stack => evalFrom p maxCallDepth fuel range depth ip stack
    | .stop result stack => .stopped result stack
    | .call callee ip =>
      if maxCallDepth ≤ depth then .stopped (.error (.callDepth maxCallDepth)) stack
      else
        match evalFrom p maxCallDepth fuel callee (depth + 1) callee.start stack with
        | .outOfFuel => .outOfFuel
        | .stopped (.error f) stack => .stopped (.error f) stack
        | .stopped (.ok value) stack =>
          match (handOver value).run stack with
          | (.ok (), stack) => evalFrom p maxCallDepth fuel range depth ip stack
          | (.error f, stack) => .stopped (.error f) stack

/-- Evaluates a block, in which `depth` blocks are being evaluated up to and with this one. -/
def evalBlock (p : Program) (maxCallDepth fuel : Nat) (range : Range) (stack : Stack)
    (depth : Nat) : Outcome :=
  evalFrom p maxCallDepth fuel range depth range.start stack

/-! ## Evaluation in the machine -/

theorem advance_eq (p : Program) (maxCallDepth : Nat) (stack : Stack) (range : Range)
    (depth ip : Nat) (callers : List Frame) :
    advance p maxCallDepth ⟨stack, ⟨ip, range, depth⟩, callers⟩ =
      some ((⟨stack, ⟨ip, range, depth⟩, callers⟩ : State).follow maxCallDepth
        (p.blockStep range ip stack)).phase := by
  rw [advance, step_eq]

theorem evalFrom_reaches {p : Program} {maxCallDepth fuel : Nat} {range : Range} {depth ip : Nat}
    {stack left : Stack} {result : Result}
    (h : evalFrom p maxCallDepth fuel range depth ip stack = .stopped result left)
    (callers : List Frame) :
    Reaches (Phase.next (advance p maxCallDepth)) (.running ⟨stack, ⟨ip, range, depth⟩, callers⟩)
      (handBack result left callers).phase := by
  induction fuel generalizing range depth ip stack result left callers with
  | zero => cases h
  | succ fuel ih =>
    have hstep := advance_eq p maxCallDepth stack range depth ip callers
    rw [evalFrom] at h
    cases hblock : p.blockStep range ip stack with
    | next ip' stack' =>
      simp only [hblock] at h hstep
      exact (ih h callers).head hstep
    | stop result stack' =>
      simp only [hblock] at h hstep
      cases h
      exact .single hstep
    | call callee ip' =>
      simp only [hblock, State.follow] at h hstep
      by_cases hdepth : maxCallDepth ≤ depth
      · rw [if_pos hdepth] at h hstep
        cases h
        exact .single hstep
      · rw [if_neg hdepth] at h hstep
        cases hcallee : evalFrom p maxCallDepth fuel callee (depth + 1) callee.start stack with
        | outOfFuel => rw [hcallee] at h; cases h
        | stopped result' stack' =>
          rw [hcallee] at h
          -- The callee hands its result back to the frame that called it, which goes on there.
          have hreach : Reaches (Phase.next (advance p maxCallDepth))
              (.running ⟨stack, ⟨ip, range, depth⟩, callers⟩)
              (handBack result' stack' (⟨ip', range, depth⟩ :: callers)).phase :=
            (ih hcallee _).head hstep
          cases result' with
          | error f =>
            cases h
            exact hreach
          | ok value =>
            simp only [handBack] at h hreach
            cases hgive : (handOver value).run stack' with
            | mk given stack'' =>
              rw [hgive] at h hreach
              cases given with
              | error f =>
                cases h
                exact hreach
              | ok u => exact hreach.trans (ih h callers)

/-- A block that calls another one evaluates to a result if the callee does and, in case the callee
has left something to go on with, the rest of the block does. -/
theorem evalFrom_of_call {p : Program} {maxCallDepth fuel : Nat} {range callee : Range}
    {depth ip ip' : Nat} {stack stack' : Stack} {result : Result}
    (hblock : p.blockStep range ip stack = .call callee ip') (hdepth : ¬ maxCallDepth ≤ depth)
    (hcallee : evalFrom p maxCallDepth fuel callee (depth + 1) callee.start stack =
      .stopped result stack')
    (hrest : ∀ value stack'', result = .ok value →
      (handOver value).run stack' = (.ok (), stack'') →
      ∃ r left, evalFrom p maxCallDepth fuel range depth ip' stack'' = .stopped r left) :
    ∃ r left, evalFrom p maxCallDepth (fuel + 1) range depth ip stack = .stopped r left := by
  rw [evalFrom]
  simp only [hblock, if_neg hdepth, hcallee]
  cases result with
  | error f => exact ⟨_, _, rfl⟩
  | ok value =>
    simp only
    cases hgive : (handOver value).run stack' with
    | mk given stack'' =>
      cases given with
      | error f => exact ⟨_, _, rfl⟩
      | ok u => exact hrest value stack'' rfl hgive

/-- As much fuel as the machine has used is enough, and more does no harm. -/
theorem evalFrom_of_run {p : Program} {maxCallDepth fuel bound : Nat} (hbound : fuel ≤ bound)
    {s : State} {result : Result} {stack : Stack}
    (h : s.run p maxCallDepth fuel = .stopped result stack) :
    ∃ r left, evalFrom p maxCallDepth bound s.frame.range s.frame.depth s.frame.ip s.stack =
      .stopped r left := by
  -- Both the callee and the rest of the block behind a call run on less fuel than the block.
  induction bound generalizing fuel s with
  | zero =>
    cases Nat.le_zero.1 hbound
    cases h
  | succ bound ih =>
    cases fuel with
    | zero => cases h
    | succ fuel =>
      have hless : fuel ≤ bound := Nat.le_of_succ_le_succ hbound
      rw [State.run, step_eq] at h
      cases hblock : p.blockStep s.frame.range s.frame.ip s.stack with
      | next ip stack =>
        rw [hblock] at h
        rw [evalFrom, hblock]
        exact ih hless h
      | stop result stack =>
        rw [evalFrom, hblock]
        exact ⟨_, _, rfl⟩
      | call callee ip =>
        rw [hblock] at h
        by_cases hdepth : maxCallDepth ≤ s.frame.depth
        · rw [evalFrom, hblock]
          simp only [if_pos hdepth]
          exact ⟨_, _, rfl⟩
        · simp only [State.follow, if_neg hdepth] at h
          obtain ⟨result', stack', hcallee⟩ := ih hless h
          refine evalFrom_of_call hblock hdepth hcallee ?_
          intro value stack'' hvalue hgive
          subst hvalue
          -- The machine has come back to the frame that called, with fuel left.
          have hreach := evalFrom_reaches hcallee ({ s.frame with ip } :: s.callers)
          simp only [handBack, hgive] at hreach
          obtain ⟨rest, hle, hstop⟩ := State.run_stopped_of_reaches hreach h
          exact ih (Nat.le_trans hle hless) hstop

theorem handBack_nil (result : Result) (stack : Stack) :
    (handBack result stack []).phase = .stopped result stack := by
  cases result with
  | error f => rfl
  | ok value => rfl

/-- Executing a range stops exactly when the recursive evaluation of the range does, with the same
result and the same stack. -/
theorem execute_stops_iff_evalBlock_stops (p : Program) (maxCallDepth : Nat)
    (hdepth : 1 ≤ maxCallDepth) (stack : Stack) (range : Range) (hcovers : p.covers range)
    (result : Result) (left : Stack) :
    (∃ fuel, (Machine.mk p maxCallDepth stack).execute fuel range = .stopped result left) ↔
      ∃ fuel, evalBlock p maxCallDepth fuel range stack 1 = .stopped result left := by
  have hstart : (Machine.mk p maxCallDepth stack).start range =
      .ok ⟨stack, .enter range 1, []⟩ := by
    rw [Machine.start, if_pos hcovers, if_neg (Nat.one_le_iff_ne_zero.1 hdepth)]
  have hstops : ∀ fuel result' left',
      evalBlock p maxCallDepth fuel range stack 1 = .stopped result' left' →
      Reaches (Phase.next (advance p maxCallDepth)) (.running ⟨stack, .enter range 1, []⟩)
        (.stopped result' left') := by
    intro fuel result' left' h
    rw [← handBack_nil]
    exact evalFrom_reaches h []
  simp only [Machine.execute, hstart, run_stopped_iff_reaches]
  constructor
  · intro hreach
    obtain ⟨fuel, hrun⟩ := run_stopped_iff_reaches.2 hreach
    obtain ⟨result', left', heval⟩ := evalFrom_of_run (Nat.le_refl fuel) hrun
    -- The evaluation has a result of its own, which the machine would stop with too.
    cases Phase.stopped_unique hreach (hstops fuel result' left' heval)
    exact ⟨fuel, heval⟩
  · intro h
    obtain ⟨fuel, heval⟩ := h
    exact hstops fuel result left heval

/-- A block that calls itself and removes one value each time, until there is a zero on top. -/
theorem execute_stops_iff_evalBlock_stops_self_call :
    let p : Program := ⟨#[6, 5, 3, 1, 0, 0], #[], #[⟨0, 6⟩]⟩
    let stack : Stack := ⟨3, #[.integer 0, .integer 7, .integer 7]⟩
    1 ≤ 3 ∧ p.covers ⟨0, 6⟩ ∧
      (∃ fuel, (Machine.mk p 3 stack).execute fuel ⟨0, 6⟩ =
        .stopped (.ok (some (.integer 0))) ⟨3, #[]⟩) ∧
      ∃ fuel, evalBlock p 3 fuel ⟨0, 6⟩ stack 1 = .stopped (.ok (some (.integer 0))) ⟨3, #[]⟩ := by
  intro p stack
  have hcovers : p.covers ⟨0, 6⟩ := rfl
  have hstops : ∃ fuel, (Machine.mk p 3 stack).execute fuel ⟨0, 6⟩ =
      .stopped (.ok (some (.integer 0))) ⟨3, #[]⟩ := ⟨10, rfl⟩
  have hiff := execute_stops_iff_evalBlock_stops p 3 (by decide) stack ⟨0, 6⟩ hcovers
  exact ⟨by decide, hcovers, hstops, (hiff _ _).1 hstops⟩

end BlockMachine
