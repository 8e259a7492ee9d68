import BlockMachine.Proofs.ExactArithmetic
import BlockMachine.Proofs.WiderLimits

/-! # Where limits are met

A machine has two limits, and few instructions can meet them.  The stack is full only for an
instruction that puts a value on it without taking one first; the frames are too many only for a
call.  A result and a value that is given back find the room of what was taken for them.

* `State.Grows`, `State.Calls` — the instructions that can meet a limit;
* `State.execute_overflow_iff`, `State.execute_callDepth_iff` — when they do;
* `limits_met_by_growth_only` — what that says about the states of sessions.
-/

namespace BlockMachine

/-- The next instruction puts a value on the stack and takes none: a constant that there is, or
another copy of the value on top. -/
inductive State.Grows (p : Program) (s : State) : Opcode → Prop
  | push {index : Nat} {v : Value} (hinside : s.frame.ip + 1 < s.frame.range.stop)
      (hindex : p.code[s.frame.ip + 1]? = some index) (hconstant : p.constants[index]? = some v) :
      Grows p s .push
  | dup {v : Value} {rest : List Value} (htop : s.stack.topFirst = v :: rest) :
      Grows p s (.act .dup)

/-- The next instruction calls a block that can be entered. -/
inductive State.Calls (p : Program) (s : State) : Opcode → Prop
  | call {index : Nat} {callee : Range} (hinside : s.frame.ip + 1 < s.frame.range.stop)
      (hindex : p.code[s.frame.ip + 1]? = some index) (hblock : p.blocks[index]? = some callee)
      (hcovers : p.covers callee) : Calls p s .call

/-! ## Actions -/

section

variable {s left : Stack} {n : Nat}

theorem Stack.push_error_iff {v : Value} {f : Fault} :
    (push v).run s = (.error f, left) ↔
      s.capacity ≤ s.depth ∧ f = .stackOverflow s.capacity ∧ left = s := by
  refine ⟨push_error, ?_⟩
  intro ⟨hfull, hf, hleft⟩
  rw [run_push, if_neg (Nat.not_lt.2 hfull), hf, hleft]

namespace Action

theorem pop_error_ne_overflow : pop.apply.run s ≠ (.error (.stackOverflow n), left) := by
  intro h
  rw [apply, StackM.discard_eq_bind, StackM.run_bind, Stack.run_pop_eq] at h
  cases htop : s.topFirst with
  | nil => rw [htop] at h; cases h
  | cons v rest => rw [htop] at h; cases h

theorem bump_error_ne_overflow (op : Arith) :
    (bump op).run s ≠ (.error (.stackOverflow n), left) := by
  intro h
  rw [bump, StackM.run_bind, Stack.run_peek] at h
  cases htop : s.values.back? with
  | none => rw [htop] at h; cases h
  | some v =>
    rw [htop] at h
    cases v with
    | label name => cases h
    | integer a =>
      simp only at h
      split at h
      · rw [StackM.discard_eq_bind, StackM.run_bind, Stack.run_setTop, htop] at h
        cases h
      · cases h

/-- No result finds the stack full: there is the room of an operand. -/
theorem computes_error_ne_overflow {a : Action} (ha : a.computes) (hroom : s.depth ≤ s.capacity) :
    a.apply.run s ≠ (.error (.stackOverflow n), left) := by
  intro h
  obtain ⟨taken, hfails, _⟩ | ⟨_, hover⟩ := error_of_computes ha h
  · generalize s.topFirst = values at hfails
    cases hfails
  · omega

theorem dup_overflow_iff :
    dup.apply.run s = (.error (.stackOverflow n), left) ↔
      (∃ v rest, s.topFirst = v :: rest) ∧ s.capacity ≤ s.depth ∧ n = s.capacity ∧ left = s := by
  rw [apply, StackM.run_bind, Stack.run_peek, Stack.back?_eq_head?]
  cases htop : s.topFirst with
  | nil =>
    refine iff_of_false ?_ (by simp)
    intro h
    cases h
  | cons v rest => simp [Stack.push_error_iff]

theorem overflow_iff {a : Action} (hroom : s.depth ≤ s.capacity) :
    a.apply.run s = (.error (.stackOverflow n), left) ↔
      a = .dup ∧ (∃ v rest, s.topFirst = v :: rest) ∧ s.depth = s.capacity ∧ n = s.capacity ∧
        left = s := by
  have hfull : s.capacity ≤ s.depth ↔ s.depth = s.capacity := by omega
  cases a with
  | dup => simp [dup_overflow_iff, hfull]
  | pop => exact iff_of_false pop_error_ne_overflow (by simp)
  | inc => exact iff_of_false (bump_error_ne_overflow .add) (by simp)
  | dec => exact iff_of_false (bump_error_ne_overflow .sub) (by simp)
  | arith _ | logic _ | not => exact iff_of_false (computes_error_ne_overflow rfl hroom) (by simp)

end Action

end

/-! ## Instructions -/

namespace State

variable {p : Program} {maxCallDepth : Nat} {s : State} {op : Opcode} {f : Fault} {left : Stack}

theorem fault_eq_iff {g : Fault} :
    s.fault g = .stop (.error f) left ↔ f = g ∧ left = s.stack := by
  rw [fault, Transition.stop.injEq, Except.error.injEq, eq_comm, eq_comm (a := s.stack)]

theorem perform_error_iff {operation : StackM Unit} {ip : Nat} :
    s.perform operation ip = .stop (.error f) left ↔ operation.run s.stack = (.error f, left) :=
  ⟨perform_error, fun h => perform_of_error h ip⟩

/-- Reading the operand fails in its own way, so any other fault comes from what is done with it. -/
theorem operand_error_iff {offset : Nat} {next : Nat → Transition}
    (hf : ∀ o, f ≠ .invalidCounter o) :
    s.operand p offset next = .stop (.error f) left ↔
      offset < s.frame.range.stop ∧
        ∃ word, p.code[offset]? = some word ∧ next word = .stop (.error f) left := by
  rw [operand]
  by_cases hinside : offset < s.frame.range.stop
  · cases hword : p.code[offset]? with
    | some word => simp [hinside]
    | none => simp [hinside, fault_eq_iff, hf]
  · simp [hinside, fault_eq_iff, hf]

theorem pushConstant_overflow_iff {index ip n : Nat} :
    s.pushConstant p index ip = .stop (.error (.stackOverflow n)) left ↔
      (∃ v, p.constants[index]? = some v) ∧ s.stack.capacity ≤ s.stack.depth ∧
        n = s.stack.capacity ∧ left = s.stack := by
  rw [pushConstant]
  cases p.constants[index]? with
  | none => simp [fault_eq_iff]
  | some v => simp [perform_error_iff, Stack.push_error_iff]

theorem Fails.op_of_overflow {n : Nat} (h : s.Fails maxCallDepth op (.stackOverflow n) left)
    (hroom : s.stack.depth ≤ s.stack.capacity) : op = .push ∨ op = .act .dup := by
  cases h with
  | full _ => exact .inl rfl
  | noRoom hover => omega
  | action hrun => exact .inr (congrArg Opcode.act ((Action.overflow_iff hroom).1 hrun).1)

theorem Fails.op_of_callDepth {n : Nat} (h : s.Fails maxCallDepth op (.callDepth n) left) :
    op = .call := by
  cases h with
  | depth _ => rfl
  | action hrun => cases Action.ofOperands_of_error hrun

theorem execute_overflow_iff {n : Nat} (hroom : s.stack.depth ≤ s.stack.capacity) :
    s.execute p maxCallDepth op = .stop (.error (.stackOverflow n)) left ↔
      s.Grows p op ∧ s.stack.depth = s.stack.capacity ∧ n = s.stack.capacity ∧ left = s.stack := by
  constructor
  · intro h
    obtain rfl | rfl := (execute_error h).op_of_overflow hroom
    · obtain ⟨hinside, index, hindex, hpush⟩ := (operand_error_iff (by simp)).1 h
      obtain ⟨⟨v, hv⟩, hfull, hn, hleft⟩ := pushConstant_overflow_iff.1 hpush
      exact ⟨.push hinside hindex hv, Nat.le_antisymm hroom hfull, hn, hleft⟩
    · obtain ⟨_, ⟨v, rest, htop⟩, hfull, hn, hleft⟩ :=
        (Action.overflow_iff hroom).1 (perform_error h)
      exact ⟨.dup htop, hfull, hn, hleft⟩
  · intro ⟨hgrows, hfull, hn, hleft⟩
    cases hgrows with
    | push hinside hindex hv =>
      refine (operand_error_iff (by simp)).2 ⟨hinside, _, hindex, ?_⟩
      exact pushConstant_overflow_iff.2 ⟨⟨_, hv⟩, hfull.ge, hn, hleft⟩
    | dup htop =>
      have hrun := (Action.overflow_iff hroom).2 ⟨rfl, ⟨_, _, htop⟩, hfull, hn, hleft⟩
      exact perform_of_error hrun _

theorem call_callDepth_iff {index ip n : Nat} :
    s.call p maxCallDepth index ip = .stop (.error (.callDepth n)) left ↔
      (∃ callee, p.blocks[index]? = some callee ∧ p.covers callee) ∧
        maxCallDepth ≤ s.frame.depth ∧ n = maxCallDepth ∧ left = s.stack := by
  rw [call]
  cases p.blocks[index]? with
  | none => simp [fault_eq_iff]
  | some callee =>
    by_cases hcovers : p.covers callee
    · by_cases hdepth : maxCallDepth ≤ s.frame.depth
      · simp [fault_eq_iff, hcovers, hdepth]
      · simp [hcovers, hdepth]
    · simp [fault_eq_iff, hcovers]

theorem execute_callDepth_iff {n : Nat} :
    s.execute p maxCallDepth op = .stop (.error (.callDepth n)) left ↔
      s.Calls p op ∧ maxCallDepth ≤ s.frame.depth ∧ n = maxCallDepth ∧ left = s.stack := by
  constructor
  · intro h
    obtain rfl := (execute_error h).op_of_callDepth
    obtain ⟨hinside, index, hindex, hcall⟩ := (operand_error_iff (by simp)).1 h
    obtain ⟨⟨callee, hblock, hcovers⟩, hdepth, hn, hleft⟩ := call_callDepth_iff.1 hcall
    exact ⟨.call hinside hindex hblock hcovers, hdepth, hn, hleft⟩
  · intro ⟨hcalls, hdepth, hn, hleft⟩
    cases hcalls with
    | call hinside hindex hblock hcovers =>
      refine (operand_error_iff (by simp)).2 ⟨hinside, _, hindex, ?_⟩
      exact call_callDepth_iff.2 ⟨⟨_, hblock, hcovers⟩, hdepth, hn, hleft⟩

/-- A value that is given back takes its own place on the stack again. -/
theorem giveBack_eq_next {rest : Array Value} {v : Value} {caller : Frame} {callers : List Frame}
    (hvalues : s.stack.values = rest.push v) (hcallers : s.callers = caller :: callers)
    (hroom : s.stack.depth ≤ s.stack.capacity) :
    s.giveBack = .next ⟨s.stack, caller, callers⟩ := by
  obtain ⟨⟨capacity, values⟩, frame, below⟩ := s
  obtain rfl : values = rest.push v := hvalues
  have hsize : rest.size < capacity := by
    simp only [Stack.depth, Array.size_push] at hroom
    omega
  have hpop : Stack.pop.run ⟨capacity, rest.push v⟩ = (.ok v, ⟨capacity, rest⟩) := by
    simp [Stack.run_pop]
  rw [giveBack_of_caller hpop hcallers]
  exact perform_of_ok (s := ⟨⟨capacity, rest⟩, caller, callers⟩) (Stack.run_push_of_room hsize v) _

end State

/-! ## Sessions -/

theorem step_limit_iff {p : Program} {maxCallDepth : Nat} {s : State} {f : Fault} {left : Stack}
    (hf : f.isLimit) :
    step p maxCallDepth s = .stop (.error f) left ↔
      ∃ op, s.opcode? p = some op ∧ s.execute p maxCallDepth op = .stop (.error f) left := by
  constructor
  · intro h
    rw [step] at h
    by_cases hend : s.frame.range.stop ≤ s.frame.ip
    · rw [if_pos hend, State.leave] at h
      split at h <;> cases h
    · rw [if_neg hend] at h
      -- A counter outside the code and a word that is no opcode are no limits.
      cases hword : p.code[s.frame.ip]? with
      | none =>
        rw [hword] at h
        cases h
        cases hf
      | some word =>
        cases hop : Opcode.ofWord? word with
        | none =>
          simp only [hword, hop] at h
          cases h
          cases hf
        | some op =>
          simp only [hword, hop] at h
          exact ⟨op, by simp [State.opcode?, hend, hword, hop], h⟩
  · intro h
    obtain ⟨op, hop, hexecute⟩ := h
    rw [step_of_opcode? hop, hexecute]

/-- The stack is found full by instructions only that put a value on it and take none, and the
frames are too many for a call only.  A value that is given back always finds its room, and an
action that computes fails for its operands only. -/
theorem limits_met_by_growth_only (p : Program) (limits : Limits) (calls : List Call) (m : Machine)
    (hserves : (Machine.new p limits).Serves calls m) (c : Call) (s : State)
    (hvisits : m.Visits c s) :
    (∀ capacity left,
      step p limits.maxCallDepth s = .stop (.error (.stackOverflow capacity)) left ↔
        (∃ op, s.opcode? p = some op ∧ s.Grows p op) ∧ s.stack.depth = limits.stackCapacity ∧
          capacity = limits.stackCapacity ∧ left = s.stack) ∧
    (∀ limit left,
      step p limits.maxCallDepth s = .stop (.error (.callDepth limit)) left ↔
        (∃ op, s.opcode? p = some op ∧ s.Calls p op) ∧ s.frames.length = limits.maxCallDepth ∧
          limit = limits.maxCallDepth ∧ left = s.stack) ∧
    (∀ (rest : Array Value) v caller callers, s.opcode? p = some .ret →
      s.stack.values = rest.push v → s.callers = caller :: callers →
        step p limits.maxCallDepth s = .next ⟨s.stack, caller, callers⟩) ∧
    ∀ action f left, action.computes → s.opcode? p = some (.act action) →
      step p limits.maxCallDepth s = .stop (.error f) left →
        ∃ n, action.Fails s.stack.topFirst f n := by
  have hbounds := visited_inBounds hserves hvisits
  have hcapacity : s.stack.capacity = limits.stackCapacity := hbounds.stack.capacity_eq
  have hroom : s.stack.depth ≤ s.stack.capacity := hcapacity ▸ hbounds.stack.depth_le
  have hdepth : s.frame.depth = s.frames.length := hbounds.counted.1
  have hcount : s.frames.length ≤ limits.maxCallDepth := hbounds.count_le
  have hfull : limits.maxCallDepth ≤ s.frames.length ↔ s.frames.length = limits.maxCallDepth := by
    omega
  refine ⟨?_, ?_, ?_, ?_⟩
  · intro capacity left
    rw [step_limit_iff rfl]
    simp only [State.execute_overflow_iff hroom, hcapacity, ← and_assoc, exists_and_right]
  · intro limit left
    rw [step_limit_iff rfl]
    simp only [State.execute_callDepth_iff, hdepth, hfull, ← and_assoc, exists_and_right]
  · intro rest v caller callers hop hvalues hcallers
    rw [step_of_opcode? hop]
    exact State.giveBack_eq_next hvalues hcallers hroom
  · intro action f left hcomputes hop hfails
    rw [step_of_opcode? hop] at hfails
    obtain ⟨n, hreason, _⟩ := (State.execute_error hfails).taken hcomputes hroom
    exact ⟨n, hreason⟩

/-- One value and two frames are allowed.  A called block gives a value back when both limits are
reached; there is no room for a copy of it then. -/
theorem limits_met_by_growth_only_full :
    let p : Program := ⟨#[1, 1, 8, 2, 0, 0], #[.integer 7], #[⟨0, 3⟩, ⟨3, 6⟩]⟩
    let m : Machine := Machine.new p ⟨1, 2⟩
    let stack : Stack := ⟨1, #[.integer 7]⟩
    let s : State := ⟨stack, ⟨5, ⟨3, 6⟩, 2⟩, [⟨2, ⟨0, 3⟩, 1⟩]⟩
    let after : State := ⟨stack, ⟨2, ⟨0, 3⟩, 1⟩, []⟩
    m.Visits .run s ∧ step p 2 s = .next after ∧ m.Visits .run after ∧
      step p 2 after = .stop (.error (.stackOverflow 1)) stack := by
  intro p m stack s after
  let start : State := ⟨.empty 1, .enter ⟨0, 3⟩ 1, []⟩
  have hvisits : m.Visits .run s := ⟨start, rfl, .tail (.single rfl) rfl⟩
  have hvisits' : m.Visits .run after := ⟨start, rfl, .tail (.tail (.single rfl) rfl) rfl⟩
  obtain ⟨_, _, hgiven, _⟩ := limits_met_by_growth_only p ⟨1, 2⟩ [] m (.nil m) .run s hvisits
  obtain ⟨hover, _⟩ := limits_met_by_growth_only p ⟨1, 2⟩ [] m (.nil m) .run after hvisits'
  have hdup : ∃ op, after.opcode? p = some op ∧ after.Grows p op := ⟨_, rfl, .dup rfl⟩
  exact ⟨hvisits, hgiven #[] _ _ _ rfl rfl rfl, hvisits', (hover 1 stack).2 ⟨hdup, rfl, rfl, rfl⟩⟩

end BlockMachine
