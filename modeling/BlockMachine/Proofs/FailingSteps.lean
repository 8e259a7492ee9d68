import BlockMachine.Proofs.Bounds
import BlockMachine.Proofs.StackFaults

/-! # What a failing step leaves

A machine can be called again after a fault, and it then finds the stack that the failing step has
left.  That is the stack in front of the step, unless the instruction computes with integers: then
the operands that it has taken are missing.

* `State.opcode?` — the instruction that a state stands at;
* `State.Fails` — all ways in which an instruction fails, with the stack that is left;
* `State.execute_error` — there are no others;
* `failing_step_leaves_rest` — what is left in every state of every session.
-/

namespace BlockMachine

/-! ## The instruction of a state -/

/-- The opcode that the innermost frame stands at; none at the end of its block and at a word that
is no opcode. -/
def State.opcode? (p : Program) (s : State) : Option Opcode :=
  if s.frame.range.stop ≤ s.frame.ip then none else p.code[s.frame.ip]?.bind Opcode.ofWord?

theorem step_of_opcode? {p : Program} {s : State} {op : Opcode} (h : s.opcode? p = some op)
    (maxCallDepth : Nat) : step p maxCallDepth s = s.execute p maxCallDepth op := by
  rw [State.opcode?] at h
  split at h
  · cases h
  · next hend =>
    obtain ⟨word, hword, hop⟩ := Option.bind_eq_some_iff.1 h
    simp only [step, if_neg hend, hword, hop]

/-! ## Instructions that fail -/

/-- The instruction that a state stands at fails with a fault and leaves a stack.  Checks of the
operand come first, so that they find the stack untouched. -/
inductive State.Fails (s : State) (maxCallDepth : Nat) : Opcode → Fault → Stack → Prop
  | cutOff {op : Opcode} (hop : op.operand?.isSome) :
      Fails s maxCallDepth op (.invalidCounter (s.frame.ip + 1)) s.stack
  | constant {op : Opcode} {index : Nat} (hop : op.operand? = some .constant) :
      Fails s maxCallDepth op (.invalidConstant index) s.stack
  | full (h : s.stack.capacity ≤ s.stack.depth) :
      Fails s maxCallDepth .push (.stackOverflow s.stack.capacity) s.stack
  | labelCount : Fails s maxCallDepth .popN .labelCount s.stack
  | popCount {requested : Int} :
      Fails s maxCallDepth .popN (.popCount requested s.stack.depth) s.stack
  | target {condition : Condition} {target : Nat} :
      Fails s maxCallDepth (.jump condition) (.invalidCounter target) s.stack
  | test {condition : Condition} (h : s.stack.topFirst = []) :
      Fails s maxCallDepth (.jump condition) .stackUnderflow s.stack
  | block {index : Nat} : Fails s maxCallDepth .call (.invalidBlock index) s.stack
  | range {callee : Range} : Fails s maxCallDepth .call (.invalidRange callee) s.stack
  | depth (h : maxCallDepth ≤ s.frame.depth) :
      Fails s maxCallDepth .call (.callDepth maxCallDepth) s.stack
  | noValue (h : s.stack.topFirst = []) : Fails s maxCallDepth .ret .stackUnderflow s.stack
  /-- a value that is given back finds no room only where there were too many to begin with -/
  | noRoom {left : Stack} (h : s.stack.capacity < s.stack.depth) :
      Fails s maxCallDepth .ret (.stackOverflow s.stack.capacity) left
  | action {action : Action} {f : Fault} {left : Stack}
      (h : action.apply.run s.stack = (.error f, left)) : Fails s maxCallDepth (.act action) f left

namespace State

variable {p : Program} {maxCallDepth : Nat} {s : State} {f : Fault} {left : Stack}

theorem perform_error {operation : StackM Unit} {ip : Nat}
    (h : s.perform operation ip = .stop (.error f) left) :
    operation.run s.stack = (.error f, left) := by
  cases hrun : operation.run s.stack with
  | mk r after =>
    cases r with
    | ok u => rw [perform_of_ok hrun] at h; cases h
    | error e => rw [perform_of_error hrun] at h; cases h; rfl

theorem giveBack_error (h : s.giveBack = .stop (.error f) left) :
    s.Fails maxCallDepth .ret f left := by
  cases hpop : Stack.pop.run s.stack with
  | mk r after =>
    cases r with
    | error e =>
      rw [giveBack_of_error hpop] at h
      cases h
      obtain ⟨htop, rfl, rfl⟩ := Stack.pop_error hpop
      exact .noValue htop
    | ok v =>
      cases hcallers : s.callers with
      | nil => rw [giveBack_of_last hpop hcallers] at h; cases h
      | cons caller callers =>
        rw [giveBack_of_caller hpop hcallers] at h
        obtain ⟨rest, htop, rfl⟩ := Stack.pop_ok hpop
        have hdepth : 1 ≤ s.stack.depth := by rw [← s.stack.length_topFirst, htop]; simp
        have hpush := perform_error h
        obtain ⟨rfl, hover⟩ := Stack.push_error_of_dropTop Nat.zero_lt_one hdepth hpush
        exact .noRoom hover

theorem operand_error {next : Nat → Transition} {op : Opcode} (hop : op.operand?.isSome)
    (hnext : ∀ word, next word = .stop (.error f) left → s.Fails maxCallDepth op f left)
    (h : s.operand p (s.frame.ip + 1) next = .stop (.error f) left) :
    s.Fails maxCallDepth op f left := by
  rw [operand] at h
  split at h
  · split at h
    · exact hnext _ h
    · cases h
      exact .cutOff hop
  · cases h
    exact .cutOff hop

theorem execute_error {op : Opcode} (h : s.execute p maxCallDepth op = .stop (.error f) left) :
    s.Fails maxCallDepth op f left := by
  cases op with
  | act action => exact .action (perform_error h)
  | ret => exact giveBack_error h
  | push =>
    refine operand_error rfl (fun index h => ?_) h
    rw [pushConstant] at h
    split at h
    · cases h
      exact .constant rfl
    · obtain ⟨hfull, rfl, rfl⟩ := Stack.push_error (perform_error h)
      exact .full hfull
  | popN =>
    refine operand_error rfl (fun index h => ?_) h
    rw [popConstant] at h
    split at h
    · cases h
      exact .constant rfl
    · cases h
      exact .labelCount
    · obtain ⟨⟨requested, rfl⟩, rfl⟩ := Stack.popCounted_error (perform_error h)
      exact .popCount
  | jump condition =>
    refine operand_error rfl (fun target h => ?_) h
    rw [jumpWhen] at h
    split at h
    · next htest =>
      cases h
      obtain ⟨htop, rfl⟩ := Condition.test_error htest
      exact .test htop
    · split at h
      · rw [jump] at h
        split at h
        · cases h
        · cases h
          exact .target
      · cases h
  | call =>
    refine operand_error rfl (fun index h => ?_) h
    rw [call] at h
    split at h
    · cases h
      exact .block
    · split at h
      · split at h
        · next hdepth =>
          cases h
          exact .depth hdepth
        · cases h
      · cases h
        exact .range

/-- Within its capacity, the stack stays as it is when an instruction fails that does not
compute. -/
theorem Fails.left_eq {op : Opcode} (h : s.Fails maxCallDepth op f left)
    (hop : ∀ action, op = .act action → action.computes = false)
    (hroom : s.stack.depth ≤ s.stack.capacity) : left = s.stack := by
  cases h with
  | noRoom hover => omega
  | action hrun => exact (Action.apply_atomic (hop _ rfl) _ _ _ hrun).1
  | cutOff _ | constant _ | full _ | labelCount | popCount | target | test _ | block | range
  | depth _ | noValue _ => rfl

/-- Otherwise the operands are missing that have been taken. -/
theorem Fails.taken {action : Action} (h : s.Fails maxCallDepth (.act action) f left)
    (hcomputes : action.computes) (hroom : s.stack.depth ≤ s.stack.capacity) :
    ∃ n, action.Fails s.stack.topFirst f n ∧ left = s.stack.dropTop n := by
  cases h with
  | cutOff hop => cases hop
  | constant hop => cases hop
  | action hrun =>
    obtain htaken | ⟨_, hover⟩ := Action.error_of_computes hcomputes hrun
    · exact htaken
    · omega

end State

/-! ## Sessions -/

theorem step_error {p : Program} {maxCallDepth : Nat} {s : State} {f : Fault} {left : Stack}
    (hinside : s.frame.Inside p) (h : step p maxCallDepth s = .stop (.error f) left) :
    ∃ word, p.code[s.frame.ip]? = some word ∧ (Opcode.ofWord? word = none → left = s.stack) ∧
      ∀ op, Opcode.ofWord? word = some op → s.Fails maxCallDepth op f left := by
  obtain ⟨_, _, hcode⟩ := hinside
  rw [step] at h
  split at h
  · rw [State.leave] at h
    split at h <;> cases h
  · next hend =>
    have hip : s.frame.ip < p.code.size := by omega
    rw [Array.getElem?_eq_getElem hip] at h ⊢
    refine ⟨_, rfl, ?_, ?_⟩
    · intro hunknown
      simp only [hunknown] at h
      cases h
      rfl
    · intro op hop
      simp only [hop] at h
      exact State.execute_error h

/-- A step that fails leaves the stack as it was, unless the instruction computes with integers:
then it leaves the stack without the values that have been taken, and these are found from the
top. -/
theorem failing_step_leaves_rest (p : Program) (limits : Limits) (calls : List Call) (m : Machine)
    (hserves : (Machine.new p limits).Serves calls m) (c : Call) (s : State)
    (hvisits : m.Visits c s) (f : Fault) (left : Stack)
    (hfails : step p limits.maxCallDepth s = .stop (.error f) left) :
    ∃ word, p.code[s.frame.ip]? = some word ∧
      ((∀ action, Opcode.ofWord? word = some (.act action) → action.computes = false) →
        left = s.stack) ∧
      ∀ action, Opcode.ofWord? word = some (.act action) → action.computes →
        ∃ n, action.Fails s.stack.topFirst f n ∧ left = s.stack.dropTop n := by
  have g := inBounds_guarantee p limits.maxCallDepth limits.stackCapacity (fun _ => True)
    (fun _ => trivial) fun _ _ => trivial
  have hempty := Stack.holds_empty limits.stackCapacity fun _ => True
  obtain ⟨stack, rfl, hstack⟩ := g.serves hserves rfl rfl hempty fun _ _ => trivial
  have hbounds := g.visits hstack trivial hvisits
  -- In a session the stack stays within its capacity, so what was taken can be put back.
  have hroom : s.stack.depth ≤ s.stack.capacity := by
    rw [hbounds.stack.capacity_eq]
    exact hbounds.stack.depth_le
  obtain ⟨word, hword, hunknown, hknown⟩ :=
    step_error (hbounds.frames s.frame List.mem_cons_self) hfails
  refine ⟨word, hword, ?_, ?_⟩
  · intro hother
    cases hop : Opcode.ofWord? word with
    | none => exact hunknown hop
    | some op =>
      refine (hknown op hop).left_eq ?_ hroom
      rintro action rfl
      exact hother action hop
  · intro action hop hcomputes
    exact (hknown _ hop).taken hcomputes hroom

/-- The first addition fails at a label below an integer and leaves one value, and a second call
fails at the same addition for want of another. -/
theorem failing_step_leaves_rest_twice :
    let p : Program := ⟨#[2, 0, 2, 1, 2, 0, 11], #[.integer 7, .label "x"], #[⟨0, 7⟩]⟩
    let m : Machine := ⟨p, 1, ⟨4, #[.integer 7]⟩⟩
    let s : State := ⟨⟨4, #[.integer 7]⟩, ⟨6, ⟨6, 7⟩, 1⟩, []⟩
    (Machine.new p ⟨4, 1⟩).Serves [.run] m ∧ m.Visits (.execute ⟨6, 7⟩) s ∧
      step p 1 s = .stop (.error .stackUnderflow) (.empty 4) ∧
      ∃ n, (Action.arith .add).Fails [.integer 7] .stackUnderflow n ∧
        Stack.empty 4 = s.stack.dropTop n := by
  intro p m s
  have hanswer : (Machine.new p ⟨4, 1⟩).answer 4 .run =
      .stopped (.error (.labelOperand "ADD")) ⟨4, #[.integer 7]⟩ := rfl
  have hserves : (Machine.new p ⟨4, 1⟩).Serves [.run] m := .cons hanswer (.nil _)
  have hvisits : m.Visits (.execute ⟨6, 7⟩) s := ⟨s, rfl, .refl⟩
  have hfails : step p 1 s = .stop (.error .stackUnderflow) (.empty 4) := rfl
  obtain ⟨word, hword, _, htaken⟩ :=
    failing_step_leaves_rest p ⟨4, 1⟩ [.run] m hserves (.execute ⟨6, 7⟩) s hvisits _ _ hfails
  cases hword
  exact ⟨hserves, hvisits, hfails, htaken (.arith .add) rfl rfl⟩

end BlockMachine
