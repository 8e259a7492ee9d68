import BlockMachine.Proofs.BlockSteps
import BlockMachine.Proofs.Sessions
import BlockMachine.Proofs.StackOperations

/-! # Wider limits

The limits of a machine only ever cut a run short.  A call that has stopped, and not because of a
limit, stops under all wider limits too, after as many steps, with the same result and with the
same values on the stack.

A stack is asked for its capacity only when a value is put on top, and the limit on the frames is
read by calls only.  So two machines that differ in their limits alone go on side by side until the
narrower one meets a limit.

* `cutShort` — a result that tells of a limit;
* `StackM.Scales` — an operation does the same on two capacities unless it meets the smaller one;
* `BlockStep.Widens`, `Transition.Widens` — the same of what an instruction and a step do;
* `step_widens`, `State.run_widens` — single steps and whole runs.
-/

namespace BlockMachine

/-- A fault that tells of a limit, not of the program or its values. -/
def Fault.isLimit : Fault → Bool
  | stackOverflow _ | callDepth _ => true
  | _ => false

def cutShort : Result → Bool
  | .ok _ => false
  | .error f => f.isLimit

/-! ## Stack operations -/

namespace StackM

variable {α β : Type} {small large : Nat}

/-- The operation does the same on stacks of both capacities, unless it meets the smaller one. -/
def Scales (small large : Nat) (x : StackM α) : Prop :=
  ∀ values,
    (∃ r left, x.run ⟨small, values⟩ = (r, ⟨small, left⟩) ∧
      x.run ⟨large, values⟩ = (r, ⟨large, left⟩)) ∨
    ∃ f left, x.run ⟨small, values⟩ = (.error f, left) ∧ f.isLimit

theorem Scales.pure (a : α) : (Pure.pure a : StackM α).Scales small large :=
  fun values => .inl ⟨.ok a, values, rfl, rfl⟩

theorem Scales.throw (f : Fault) : (MonadExcept.throw f : StackM α).Scales small large :=
  fun values => .inl ⟨.error f, values, rfl, rfl⟩

theorem Scales.bind {x : StackM α} {f : α → StackM β} (hx : x.Scales small large)
    (hf : ∀ a, (f a).Scales small large) : (x >>= f).Scales small large := by
  intro values
  obtain ⟨r, left, hnarrow, hwider⟩ | ⟨e, left, hnarrow, hlimit⟩ := hx values
  · rw [run_bind, run_bind, hnarrow, hwider]
    cases r with
    | ok a => exact hf a left
    | error e => exact .inl ⟨.error e, left, rfl, rfl⟩
  · rw [run_bind, hnarrow]
    exact .inr ⟨e, left, rfl, hlimit⟩

theorem Scales.discard {x : StackM α} (hx : x.Scales small large) :
    (discard x : StackM Unit).Scales small large := by
  rw [discard_eq_bind]
  exact hx.bind fun _ => .pure ()

end StackM

section

variable {small large : Nat}

namespace Stack

/-- The one operation that asks for the capacity. -/
theorem push_scales (hle : small ≤ large) (v : Value) : (push v).Scales small large := by
  intro values
  rw [run_push, run_push]
  by_cases hroom : (⟨small, values⟩ : Stack).depth < small
  · have hwider : (⟨large, values⟩ : Stack).depth < large := Nat.lt_of_lt_of_le hroom hle
    rw [if_pos hroom, if_pos hwider]
    exact .inl ⟨_, _, rfl, rfl⟩
  · rw [if_neg hroom]
    exact .inr ⟨_, _, rfl, rfl⟩

theorem pop_scales : pop.Scales small large := by
  intro values
  simp only [run_pop]
  cases values.back? with
  | none => exact .inl ⟨_, _, rfl, rfl⟩
  | some v => exact .inl ⟨_, _, rfl, rfl⟩

theorem peek_scales : peek.Scales small large := by
  intro values
  simp only [run_peek]
  cases values.back? with
  | none => exact .inl ⟨_, _, rfl, rfl⟩
  | some v => exact .inl ⟨_, _, rfl, rfl⟩

theorem setTop_scales (v : Value) : (setTop v).Scales small large := by
  intro values
  simp only [run_setTop]
  cases values.back? with
  | none => exact .inl ⟨_, _, rfl, rfl⟩
  | some old => exact .inl ⟨_, _, rfl, rfl⟩

theorem popInteger_scales (user : String) : (popInteger user).Scales small large := by
  refine pop_scales.bind fun v => ?_
  cases v with
  | integer n => exact .pure n
  | label name => exact .throw _

theorem popMany_scales (count : Nat) : (popMany count).Scales small large := by
  intro values
  rw [run_popMany, run_popMany]
  by_cases hcount : count ≤ (⟨small, values⟩ : Stack).depth
  · have hwider : count ≤ (⟨large, values⟩ : Stack).depth := hcount
    rw [if_pos hcount, if_pos hwider]
    exact .inl ⟨_, _, rfl, rfl⟩
  · have hwider : ¬count ≤ (⟨large, values⟩ : Stack).depth := hcount
    rw [if_neg hcount, if_neg hwider]
    exact .inl ⟨_, _, rfl, rfl⟩

theorem popCounted_scales (n : Int32) : (popCounted n).Scales small large := by
  intro values
  simp only [run_popCounted]
  split
  · exact .inl ⟨_, _, rfl, rfl⟩
  · exact popMany_scales _ values

end Stack

theorem Condition.test_scales (c : Condition) : c.test.Scales small large := by
  cases c with
  | always => exact .pure true
  | zero | nonzero => exact Stack.peek_scales.bind fun _ => .pure _

namespace Action

open Stack

theorem bump_scales (op : Arith) : (bump op).Scales small large := by
  refine peek_scales.bind fun v => ?_
  cases v with
  | integer n =>
    cases hop : op.eval? n 1 with
    | some m => simp only [hop]; exact (setTop_scales _).discard
    | none => simp only [hop]; exact .throw _
  | label name => exact .pure ()

theorem compute_scales (hle : small ≤ large) (op : Arith) (user : String) :
    (compute op user).Scales small large := by
  refine (popInteger_scales user).bind fun b => (popInteger_scales user).bind fun a => ?_
  by_cases hzero : op = .div ∧ b = 0
  · -- What comes behind the fault is not reached, on either stack.
    simp only [hzero]
    exact fun _ => .inl ⟨_, _, rfl, rfl⟩
  · simp only [hzero, if_false]
    cases hop : op.eval? a b with
    | some c => exact push_scales hle _
    | none => exact .throw _

theorem apply_scales (hle : small ≤ large) (a : Action) : a.apply.Scales small large := by
  cases a with
  | pop => exact pop_scales.discard
  | dup => exact peek_scales.bind fun v => push_scales hle v
  | inc => exact bump_scales .add
  | dec => exact bump_scales .sub
  | arith op => exact compute_scales hle op _
  | logic op =>
    exact (popInteger_scales _).bind fun b => (popInteger_scales _).bind fun a => push_scales hle _
  | not => exact (popInteger_scales _).bind fun a => push_scales hle _

end Action

/-! ## Steps inside a block -/

namespace BlockStep

inductive Widens (small large : Nat) : BlockStep → BlockStep → Prop
  | next {ip : Nat} {values : Array Value} :
      Widens small large (.next ip ⟨small, values⟩) (.next ip ⟨large, values⟩)
  | call {callee : Range} {ip : Nat} : Widens small large (.call callee ip) (.call callee ip)
  | stop {result : Result} {values : Array Value} :
      Widens small large (.stop result ⟨small, values⟩) (.stop result ⟨large, values⟩)
  | cut {f : Fault} {left : Stack} {wider : BlockStep} (h : f.isLimit) :
      Widens small large (.stop (.error f) left) wider

theorem perform_widens {operation : StackM Unit} (h : operation.Scales small large)
    (values : Array Value) (ip : Nat) :
    Widens small large (perform operation ⟨small, values⟩ ip)
      (perform operation ⟨large, values⟩ ip) := by
  obtain ⟨r, left, hnarrow, hwider⟩ | ⟨f, left, hnarrow, hlimit⟩ := h values
  · simp only [perform, hnarrow, hwider]
    cases r with
    | ok u => exact .next
    | error f => exact .stop
  · simp only [perform, hnarrow]
    exact .cut hlimit

end BlockStep

open BlockStep (Widens perform_widens)

theorem retStep_widens (values : Array Value) :
    Widens small large (retStep ⟨small, values⟩) (retStep ⟨large, values⟩) := by
  simp only [retStep, Stack.run_pop]
  cases values.back? with
  | none => exact .stop
  | some v => exact .stop

/-- A condition looks at the value on top and leaves the stack as it is. -/
theorem Range.jumpStep_widens (range : Range) (condition : Condition) (values : Array Value)
    (target ip : Nat) :
    Widens small large (range.jumpStep condition ⟨small, values⟩ target ip)
      (range.jumpStep condition ⟨large, values⟩ target ip) := by
  have htest : condition.test.Scales small large := condition.test_scales
  obtain ⟨r, left, hnarrow, hwider⟩ | ⟨f, left, hnarrow, hlimit⟩ := htest values
  · simp only [jumpStep, hnarrow, hwider]
    cases r with
    | error f => exact .stop
    | ok taken =>
      cases taken with
      | false => exact .next
      | true =>
        by_cases hinside : range.start ≤ target ∧ target ≤ range.stop
        · simp only [if_pos hinside]
          exact .next
        · simp only [if_neg hinside]
          exact .stop
  · simp only [jumpStep, hnarrow]
    exact .cut hlimit

namespace Program

variable (p : Program) (range : Range) (values : Array Value)

theorem operandStep_widens (offset : Nat) {next next' : Nat → BlockStep}
    (h : ∀ word, Widens small large (next word) (next' word)) :
    Widens small large (p.operandStep range offset ⟨small, values⟩ next)
      (p.operandStep range offset ⟨large, values⟩ next') := by
  simp only [operandStep]
  by_cases hinside : offset < range.stop
  · simp only [if_pos hinside]
    cases p.code[offset]? with
    | none => exact .stop
    | some word => exact h word
  · simp only [if_neg hinside]
    exact .stop

theorem pushStep_widens (hle : small ≤ large) (index ip : Nat) :
    Widens small large (p.pushStep ⟨small, values⟩ index ip)
      (p.pushStep ⟨large, values⟩ index ip) := by
  simp only [pushStep]
  cases p.constants[index]? with
  | none => exact .stop
  | some v => exact perform_widens (Stack.push_scales hle v) values ip

theorem popStep_widens (index ip : Nat) :
    Widens small large (p.popStep ⟨small, values⟩ index ip)
      (p.popStep ⟨large, values⟩ index ip) := by
  simp only [popStep]
  cases p.constants[index]? with
  | none => exact .stop
  | some v =>
    cases v with
    | label name => exact .stop
    | integer n => exact perform_widens (Stack.popCounted_scales n) values ip

theorem callStep_widens (index ip : Nat) :
    Widens small large (p.callStep ⟨small, values⟩ index ip)
      (p.callStep ⟨large, values⟩ index ip) := by
  simp only [callStep]
  cases p.blocks[index]? with
  | none => exact .stop
  | some callee =>
    by_cases hcovers : p.covers callee
    · simp only [if_pos hcovers]
      exact .call
    · simp only [if_neg hcovers]
      exact .stop

theorem opcodeStep_widens (hle : small ≤ large) (ip : Nat) (op : Opcode) :
    Widens small large (p.opcodeStep range ip ⟨small, values⟩ op)
      (p.opcodeStep range ip ⟨large, values⟩ op) := by
  cases op with
  | act action => exact perform_widens (action.apply_scales hle) values _
  | ret => exact retStep_widens values
  | push => exact p.operandStep_widens range values _ fun _ => p.pushStep_widens values hle _ _
  | popN => exact p.operandStep_widens range values _ fun _ => p.popStep_widens values _ _
  | jump condition =>
    exact p.operandStep_widens range values _ fun _ => range.jumpStep_widens condition values _ _
  | call => exact p.operandStep_widens range values _ fun _ => p.callStep_widens values _ _

theorem blockStep_widens (hle : small ≤ large) (ip : Nat) :
    Widens small large (p.blockStep range ip ⟨small, values⟩)
      (p.blockStep range ip ⟨large, values⟩) := by
  simp only [blockStep]
  by_cases hend : range.stop ≤ ip
  · simp only [if_pos hend]
    exact .stop
  · simp only [if_neg hend]
    cases p.code[ip]? with
    | none => exact .stop
    | some word =>
      simp only
      cases Opcode.ofWord? word with
      | none => exact .stop
      | some op => exact p.opcodeStep_widens range values hle ip op

end Program

/-! ## Steps and runs -/

inductive Transition.Widens (small large : Nat) : Transition → Transition → Prop
  | next {values : Array Value} {frame : Frame} {callers : List Frame} :
      Widens small large (.next ⟨⟨small, values⟩, frame, callers⟩)
        (.next ⟨⟨large, values⟩, frame, callers⟩)
  | stop {result : Result} {values : Array Value} :
      Widens small large (.stop result ⟨small, values⟩) (.stop result ⟨large, values⟩)
  | cut {f : Fault} {left : Stack} {wider : Transition} (h : f.isLimit) :
      Widens small large (.stop (.error f) left) wider

theorem handOver_scales (hle : small ≤ large) (value : Option Value) :
    (handOver value).Scales small large := by
  cases value with
  | none => exact .pure ()
  | some v => exact Stack.push_scales hle v

theorem handBack_widens (hle : small ≤ large) (result : Result) (values : Array Value)
    (callers : List Frame) :
    Transition.Widens small large (handBack result ⟨small, values⟩ callers)
      (handBack result ⟨large, values⟩ callers) := by
  cases result with
  | error f => exact .stop
  | ok value =>
    cases callers with
    | nil => exact .stop
    | cons caller callers =>
      obtain ⟨r, left, hnarrow, hwider⟩ | ⟨f, left, hnarrow, hlimit⟩ :=
        handOver_scales hle value values
      · simp only [handBack, hnarrow, hwider]
        cases r with
        | ok u => exact .next
        | error f => exact .stop
      · simp only [handBack, hnarrow]
        exact .cut hlimit

variable {depth depth' : Nat}

theorem State.follow_widens (hle : small ≤ large) (hdepth : depth ≤ depth') (values : Array Value)
    (frame : Frame) (callers : List Frame) {b b' : BlockStep} (h : b.Widens small large b') :
    Transition.Widens small large (State.follow ⟨⟨small, values⟩, frame, callers⟩ depth b)
      (State.follow ⟨⟨large, values⟩, frame, callers⟩ depth' b') := by
  cases h with
  | next => exact .next
  | @stop result values => exact handBack_widens hle result values callers
  | @call callee ip =>
    simp only [follow]
    by_cases hfull : depth ≤ frame.depth
    · rw [if_pos hfull]
      exact .cut rfl
    · rw [if_neg hfull, if_neg (by omega)]
      exact .next
  | cut hlimit => exact .cut hlimit

theorem step_widens (hle : small ≤ large) (hdepth : depth ≤ depth') (p : Program)
    (values : Array Value) (frame : Frame) (callers : List Frame) :
    Transition.Widens small large (step p depth ⟨⟨small, values⟩, frame, callers⟩)
      (step p depth' ⟨⟨large, values⟩, frame, callers⟩) := by
  rw [step_eq, step_eq]
  exact State.follow_widens hle hdepth values frame callers
    (p.blockStep_widens frame.range values hle frame.ip)

theorem State.run_widens (hle : small ≤ large) (hdepth : depth ≤ depth') (p : Program)
    {result : Result} (hresult : cutShort result = false) {left : Stack} {fuel : Nat}
    {values : Array Value} {frame : Frame} {callers : List Frame}
    (h : (State.mk ⟨small, values⟩ frame callers).run p depth fuel = .stopped result left) :
    (State.mk ⟨large, values⟩ frame callers).run p depth' fuel =
      .stopped result ⟨large, left.values⟩ := by
  -- The wider run keeps pace with the narrower one, so the same fuel is enough for both.
  induction fuel generalizing values frame callers with
  | zero => cases h
  | succ fuel ih =>
    have hstep := step_widens hle hdepth p values frame callers
    rw [run] at h ⊢
    generalize step p depth _ = narrow at hstep h
    generalize step p depth' _ = wider at hstep
    cases hstep with
    | next => exact ih h
    | stop =>
      cases h
      rfl
    | cut hlimit =>
      cases h
      simp [cutShort, hlimit] at hresult

theorem Machine.execute_widens (hle : small ≤ large) (hdepth : depth ≤ depth') {p : Program}
    {result : Result} (hresult : cutShort result = false) {left : Stack} {fuel : Nat}
    {values : Array Value} {r : Range}
    (h : (Machine.mk p depth ⟨small, values⟩).execute fuel r = .stopped result left) :
    (Machine.mk p depth' ⟨large, values⟩).execute fuel r =
      .stopped result ⟨large, left.values⟩ := by
  simp only [execute, start] at h ⊢
  by_cases hcovers : p.covers r
  · simp only [if_pos hcovers] at h ⊢
    by_cases hzero : depth = 0
    · -- That no frame is allowed at all is a limit as any other.
      simp only [if_pos hzero] at h
      cases h
      cases hresult
    · have hzero' : depth' ≠ 0 := by omega
      simp only [if_neg hzero] at h
      simp only [if_neg hzero']
      exact State.run_widens hle hdepth p hresult h
  · simp only [if_neg hcovers] at h ⊢
    cases h
    rfl

end

/-! ## Calls -/

instance : LE Limits :=
  ⟨fun l l' => l.stackCapacity ≤ l'.stackCapacity ∧ l.maxCallDepth ≤ l'.maxCallDepth⟩

/-- A machine with given values on its stack. -/
def Limits.machine (l : Limits) (p : Program) (values : Array Value) : Machine :=
  ⟨p, l.maxCallDepth, ⟨l.stackCapacity, values⟩⟩

/-- Limits only ever cut a call short: a call that stops for another reason stops under all wider
limits, with the same result and the same values on the stack. -/
theorem answer_stopped_of_wider_limits (p : Program) (values : Array Value) (l l' : Limits)
    (hle : l ≤ l') (c : Call) (fuel : Nat) (result : Result) (left : Stack)
    (hresult : cutShort result = false)
    (hstops : (l.machine p values).answer fuel c = .stopped result left) :
    (l'.machine p values).answer fuel c = .stopped result ⟨l'.stackCapacity, left.values⟩ := by
  obtain ⟨hcapacity, hdepth⟩ := hle
  cases c with
  | execute r => exact Machine.execute_widens hcapacity hdepth hresult hstops
  | run =>
    simp only [Machine.answer, Machine.run, Limits.machine] at hstops ⊢
    cases hentry : p.entry? with
    | none =>
      simp only [hentry] at hstops
      cases hstops
      rfl
    | some r =>
      -- Both machines start on an empty stack, whatever they have been given.
      simp only [hentry] at hstops
      exact Machine.execute_widens hcapacity hdepth hresult hstops

/-- The entry block puts a value on the stack and calls a block that adds another one and asks
for a negative number of values to be removed.  Two values and two frames are just enough to get
there, and wider limits lead to the same fault. -/
theorem answer_stopped_of_wider_limits_popCount :
    let p : Program := ⟨#[2, 0, 1, 1, 0, 2, 0, 4, 0], #[.integer (-1)], #[⟨0, 5⟩, ⟨5, 9⟩]⟩
    let values : Array Value := #[.integer (-1), .integer (-1)]
    (⟨2, 2⟩ : Limits) ≤ ⟨8, 4⟩ ∧
      ((⟨2, 2⟩ : Limits).machine p #[]).answer 4 .run =
        .stopped (.error (.popCount (-1) 2)) ⟨2, values⟩ ∧
      ((⟨8, 4⟩ : Limits).machine p #[]).answer 4 .run =
        .stopped (.error (.popCount (-1) 2)) ⟨8, values⟩ := by
  intro p values
  have hle : (⟨2, 2⟩ : Limits) ≤ ⟨8, 4⟩ := ⟨by decide, by decide⟩
  have hstops : ((⟨2, 2⟩ : Limits).machine p #[]).answer 4 .run =
      .stopped (.error (.popCount (-1) 2)) ⟨2, values⟩ := rfl
  exact ⟨hle, hstops, answer_stopped_of_wider_limits p #[] _ _ hle .run 4 _ _ rfl hstops⟩

end BlockMachine
