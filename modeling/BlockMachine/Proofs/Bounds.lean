import BlockMachine.Proofs.Sessions
import BlockMachine.Proofs.StackOperations

/-! # States in bounds

Nothing is known about the code that a machine executes: words may be anything, blocks may be
reversed, overlap or lie outside the code, and jumps may lead into the middle of an instruction.
Still every state of every session is in bounds (`State.InBounds`): the offset of each frame lies
in its block or at its end, the block lies in the code, there are no more frames than the limit
allows, and the stack holds no more values than its capacity.

A step reads the words at `State.reads` and no others (`step_eq_of_reads`), so a step from a state
in bounds never reads outside the code.

The invariant has the kind of the values on the stack as a parameter, which is any kind that has
all integers and the constants of the program.
-/

namespace BlockMachine

def State.frames (s : State) : List Frame :=
  s.frame :: s.callers

def Frame.Inside (p : Program) (f : Frame) : Prop :=
  f.range.start ≤ f.ip ∧ f.ip ≤ f.range.stop ∧ f.range.stop ≤ p.code.size

/-- Every frame, the innermost first, has the number of frames up to and with it. -/
def Counted : List Frame → Prop
  | [] => True
  | f :: rest => f.depth = rest.length + 1 ∧ Counted rest

structure State.InBounds (p : Program) (maxCallDepth capacity : Nat) (good : Value → Prop)
    (s : State) : Prop where
  frames : ∀ f ∈ s.frames, f.Inside p
  counted : Counted s.frames
  count_le : s.frames.length ≤ maxCallDepth
  stack : s.stack.Holds capacity good

def Transition.StaysInBounds (p : Program) (maxCallDepth capacity : Nat) (good : Value → Prop)
    (t : Transition) : Prop :=
  t.phase.Meets (State.InBounds p maxCallDepth capacity good)
    fun _ stack => True ∧ stack.Holds capacity good

theorem Program.covers_iff {p : Program} {r : Range} :
    p.covers r ↔ r.start ≤ r.stop ∧ r.stop ≤ p.code.size := by
  simp [Program.covers]

theorem Frame.enter_inside {p : Program} {r : Range} (h : p.covers r) (depth : Nat) :
    (Frame.enter r depth).Inside p := by
  obtain ⟨hrange, hcode⟩ := Program.covers_iff.1 h
  exact ⟨Nat.le_refl _, hrange, hcode⟩

namespace State

variable {p : Program} {maxCallDepth capacity : Nat} {good : Value → Prop} {s : State}

/-! ## What the parts of a step keep -/

theorem fault_staysInBounds (h : s.InBounds p maxCallDepth capacity good) (f : Fault) :
    (s.fault f).StaysInBounds p maxCallDepth capacity good :=
  ⟨trivial, h.stack⟩

/-- The frame may move anywhere in its block, and the stack may change to another good one. -/
theorem InBounds.move (h : s.InBounds p maxCallDepth capacity good) {ip : Nat}
    (hlow : s.frame.range.start ≤ ip) (hhigh : ip ≤ s.frame.range.stop) {stack : Stack}
    (hstack : stack.Holds capacity good) :
    (⟨stack, { s.frame with ip }, s.callers⟩ : State).InBounds p maxCallDepth capacity good := by
  refine ⟨?_, h.counted, h.count_le, hstack⟩
  intro f hf
  cases hf with
  -- The block of the frame is still the same one, so it still lies in the code.
  | head => exact ⟨hlow, hhigh, (h.frames s.frame List.mem_cons_self).2.2⟩
  | tail _ hf => exact h.frames f (List.mem_cons_of_mem _ hf)

theorem InBounds.callers {stack : Stack} {frame caller : Frame} {callers : List Frame}
    (h : (⟨stack, frame, caller :: callers⟩ : State).InBounds p maxCallDepth capacity good)
    {stack' : Stack} (hstack : stack'.Holds capacity good) :
    (⟨stack', caller, callers⟩ : State).InBounds p maxCallDepth capacity good := by
  refine ⟨fun f hf => h.frames f (List.mem_cons_of_mem _ hf), h.counted.2, ?_, hstack⟩
  have hcount := h.count_le
  simp only [State.frames, List.length_cons] at hcount ⊢
  omega

theorem perform_staysInBounds (h : s.InBounds p maxCallDepth capacity good)
    {operation : StackM Unit} (hop : operation.Preserves capacity good fun _ => True) {ip : Nat}
    (hlow : s.frame.range.start ≤ ip) (hhigh : ip ≤ s.frame.range.stop) :
    (s.perform operation ip).StaysInBounds p maxCallDepth capacity good := by
  have hrun := hop s.stack h.stack
  cases hresult : operation.run s.stack with
  | mk r left =>
    rw [hresult] at hrun
    cases r with
    | ok u => rw [perform_of_ok hresult]; exact h.move hlow hhigh hrun.2
    | error f => rw [perform_of_error hresult]; exact ⟨trivial, hrun.2⟩

theorem leave_staysInBounds (h : s.InBounds p maxCallDepth capacity good) :
    s.leave.StaysInBounds p maxCallDepth capacity good := by
  obtain ⟨stack, frame, callers⟩ := s
  cases callers with
  | nil => exact ⟨trivial, h.stack⟩
  | cons caller callers => exact h.callers h.stack

theorem giveBack_staysInBounds (h : s.InBounds p maxCallDepth capacity good) :
    s.giveBack.StaysInBounds p maxCallDepth capacity good := by
  have hpop := Stack.pop_preserves s.stack h.stack
  cases hresult : Stack.pop.run s.stack with
  | mk r left =>
    rw [hresult] at hpop
    cases r with
    | error f => rw [giveBack_of_error hresult]; exact ⟨trivial, hpop.2⟩
    | ok v =>
      obtain ⟨stack, frame, callers⟩ := s
      cases callers with
      | nil => rw [giveBack_of_last hresult rfl]; exact ⟨trivial, hpop.2⟩
      | cons caller callers =>
        -- Giving back is a push in the frame below, which goes on where it stands.
        rw [giveBack_of_caller hresult rfl]
        have hbelow := h.callers hpop.2
        have hinside := hbelow.frames caller List.mem_cons_self
        exact perform_staysInBounds hbelow (Stack.push_preserves hpop.1) hinside.1 hinside.2.1

theorem jump_staysInBounds (h : s.InBounds p maxCallDepth capacity good) (target : Nat) :
    (s.jump target).StaysInBounds p maxCallDepth capacity good := by
  simp only [jump]
  by_cases hrange : s.frame.range.start ≤ target ∧ target ≤ s.frame.range.stop
  · rw [if_pos hrange]
    exact h.move hrange.1 hrange.2 h.stack
  · rw [if_neg hrange]
    exact fault_staysInBounds h _

theorem jumpWhen_staysInBounds (h : s.InBounds p maxCallDepth capacity good)
    (condition : Condition) (target : Nat) {ip : Nat} (hlow : s.frame.range.start ≤ ip)
    (hhigh : ip ≤ s.frame.range.stop) :
    (s.jumpWhen condition target ip).StaysInBounds p maxCallDepth capacity good := by
  simp only [jumpWhen]
  split
  · exact fault_staysInBounds h _
  · split
    · exact jump_staysInBounds h target
    · exact h.move hlow hhigh h.stack

theorem pushConstant_staysInBounds (h : s.InBounds p maxCallDepth capacity good)
    (hconstants : ∀ v ∈ p.constants, good v) (index : Nat) {ip : Nat}
    (hlow : s.frame.range.start ≤ ip) (hhigh : ip ≤ s.frame.range.stop) :
    (s.pushConstant p index ip).StaysInBounds p maxCallDepth capacity good := by
  simp only [pushConstant]
  cases hv : p.constants[index]? with
  | none => exact fault_staysInBounds h _
  | some v =>
    have hgood := hconstants v (Array.mem_of_getElem? hv)
    exact perform_staysInBounds h (Stack.push_preserves hgood) hlow hhigh

theorem popConstant_staysInBounds (h : s.InBounds p maxCallDepth capacity good) (index : Nat)
    {ip : Nat} (hlow : s.frame.range.start ≤ ip) (hhigh : ip ≤ s.frame.range.stop) :
    (s.popConstant p index ip).StaysInBounds p maxCallDepth capacity good := by
  simp only [popConstant]
  split
  · exact fault_staysInBounds h _
  · exact fault_staysInBounds h _
  · exact perform_staysInBounds h (Stack.popCounted_preserves _) hlow hhigh

theorem call_staysInBounds (h : s.InBounds p maxCallDepth capacity good) (index : Nat) {ip : Nat}
    (hlow : s.frame.range.start ≤ ip) (hhigh : ip ≤ s.frame.range.stop) :
    (s.call p maxCallDepth index ip).StaysInBounds p maxCallDepth capacity good := by
  simp only [call]
  cases p.blocks[index]? with
  | none => exact fault_staysInBounds h _
  | some range =>
    by_cases hcovers : p.covers range
    · by_cases hdepth : maxCallDepth ≤ s.frame.depth
      · simp only [hcovers, hdepth, if_true]
        exact fault_staysInBounds h _
      · simp only [hcovers, hdepth, if_true, if_false]
        -- The caller stays where it goes on afterwards; one more frame is still allowed.
        have hcaller := h.move hlow hhigh h.stack
        have hcount := h.counted.1
        refine ⟨?_, ⟨?_, hcaller.counted⟩, ?_, h.stack⟩
        · intro f hf
          cases hf with
          | head => exact Frame.enter_inside hcovers _
          | tail _ hf => exact hcaller.frames f hf
        · exact congrArg (· + 1) hcount
        · simp only [State.frames, List.length_cons]
          omega
    · simp only [hcovers]
      exact fault_staysInBounds h _

theorem operand_staysInBounds (h : s.InBounds p maxCallDepth capacity good) {offset : Nat}
    {next : Nat → Transition}
    (hnext : offset < s.frame.range.stop →
      ∀ word, (next word).StaysInBounds p maxCallDepth capacity good) :
    (s.operand p offset next).StaysInBounds p maxCallDepth capacity good := by
  simp only [operand]
  by_cases hinside : offset < s.frame.range.stop
  · rw [if_pos hinside]
    cases p.code[offset]? with
    | none => exact fault_staysInBounds h _
    | some word => exact hnext hinside word
  · rw [if_neg hinside]
    exact fault_staysInBounds h _

theorem execute_staysInBounds (h : s.InBounds p maxCallDepth capacity good)
    (hgood : ∀ n, good (.integer n)) (hconstants : ∀ v ∈ p.constants, good v)
    (hip : s.frame.ip < s.frame.range.stop) (op : Opcode) :
    (s.execute p maxCallDepth op).StaysInBounds p maxCallDepth capacity good := by
  have hstart : s.frame.range.start ≤ s.frame.ip := (h.frames s.frame List.mem_cons_self).1
  cases op with
  | act action =>
    exact perform_staysInBounds h (Action.apply_preserves hgood action) (by omega) (by omega)
  | ret => exact giveBack_staysInBounds h
  | push =>
    exact operand_staysInBounds h fun hinside index =>
      pushConstant_staysInBounds h hconstants index (by omega) (by omega)
  | popN =>
    exact operand_staysInBounds h fun hinside index =>
      popConstant_staysInBounds h index (by omega) (by omega)
  | jump condition =>
    exact operand_staysInBounds h fun hinside target =>
      jumpWhen_staysInBounds h condition target (by omega) (by omega)
  | call =>
    exact operand_staysInBounds h fun hinside index =>
      call_staysInBounds h index (by omega) (by omega)

end State

theorem step_staysInBounds {p : Program} {maxCallDepth capacity : Nat} {good : Value → Prop}
    (hgood : ∀ n, good (.integer n)) (hconstants : ∀ v ∈ p.constants, good v) {s : State}
    (h : s.InBounds p maxCallDepth capacity good) :
    (step p maxCallDepth s).StaysInBounds p maxCallDepth capacity good := by
  simp only [step]
  by_cases hend : s.frame.range.stop ≤ s.frame.ip
  · rw [if_pos hend]
    exact State.leave_staysInBounds h
  · rw [if_neg hend]
    split
    · exact State.fault_staysInBounds h _
    · split
      · exact State.fault_staysInBounds h _
      · exact State.execute_staysInBounds h hgood hconstants (by omega) _

/-! ## Sessions -/

theorem Machine.start_inBounds {p : Program} {maxCallDepth capacity : Nat} {good : Value → Prop}
    {stack : Stack} (hstack : stack.Holds capacity good) {r : Range} {s : State}
    (h : (Machine.mk p maxCallDepth stack).start r = .ok s) :
    s.InBounds p maxCallDepth capacity good := by
  obtain ⟨hcovers, hzero, rfl⟩ := Machine.start_eq_ok h
  refine ⟨?_, ⟨rfl, trivial⟩, Nat.pos_of_ne_zero hzero, hstack⟩
  intro f hf
  cases hf with
  | head => exact Frame.enter_inside hcovers 1
  | tail _ hf => cases hf

theorem inBounds_guarantee (p : Program) (maxCallDepth capacity : Nat) (good : Value → Prop)
    (hgood : ∀ n, good (.integer n)) (hconstants : ∀ v ∈ p.constants, good v) :
    Guarantee p maxCallDepth (fun _ => True) (State.InBounds p maxCallDepth capacity good)
      (fun _ => True) (Stack.Holds capacity good) where
  clear _ h := h.clear
  opens stack c s _ hstack h := by
    cases c with
    | run =>
      simp only [Machine.opening] at h
      split at h
      · cases h
      · exact Machine.start_inBounds hstack.clear h
    | execute r => exact Machine.start_inBounds hstack h
  refuses _ _ _ _ _ _ := trivial
  steps _ h := step_staysInBounds hgood hconstants h

/-- Nothing is asked of the values here, so the states of all sessions are in bounds. -/
theorem visited_inBounds {p : Program} {limits : Limits} {calls : List Call} {m : Machine}
    (hserves : (Machine.new p limits).Serves calls m) {c : Call} {s : State}
    (hvisits : m.Visits c s) :
    s.InBounds p limits.maxCallDepth limits.stackCapacity fun _ => True := by
  have g := inBounds_guarantee p limits.maxCallDepth limits.stackCapacity (fun _ => True)
    (fun _ => trivial) fun _ _ => trivial
  have hempty := Stack.holds_empty limits.stackCapacity fun _ => True
  obtain ⟨stack, rfl, hstack⟩ := g.serves hserves rfl rfl hempty fun _ _ => trivial
  exact g.visits hstack trivial hvisits

/-! ## Reading code -/

/-- The code offsets that the next step reads: that of an opcode, in front of the end of the
block, and the one behind it when the opcode takes an operand that is not cut off. -/
def State.reads (p : Program) (s : State) : List Nat :=
  if s.frame.range.stop ≤ s.frame.ip then []
  else
    s.frame.ip ::
      if s.frame.ip + 1 < s.frame.range.stop ∧
          (p.code[s.frame.ip]?.bind Opcode.ofWord?).any (·.operand?.isSome) then
        [s.frame.ip + 1]
      else []

theorem State.operand_congr {p : Program} {code : Array Nat} {s : State} {offset : Nat}
    (hcode : offset < s.frame.range.stop → code[offset]? = p.code[offset]?)
    {next next' : Nat → Transition} (hnext : ∀ word, next word = next' word) :
    s.operand { p with code } offset next = s.operand p offset next' := by
  simp only [State.operand]
  by_cases hinside : offset < s.frame.range.stop
  · simp only [if_pos hinside, hcode hinside, hnext]
  · simp only [if_neg hinside]

theorem step_eq_of_reads {p : Program} {maxCallDepth : Nat} {s : State} {code : Array Nat}
    (hsize : code.size = p.code.size) (hcode : ∀ o ∈ s.reads p, code[o]? = p.code[o]?) :
    step { p with code } maxCallDepth s = step p maxCallDepth s := by
  simp only [step]
  by_cases hend : s.frame.range.stop ≤ s.frame.ip
  · simp only [if_pos hend]
  · have hword : code[s.frame.ip]? = p.code[s.frame.ip]? := by
      apply hcode
      simp [State.reads, hend]
    simp only [if_neg hend, hword]
    cases hw : p.code[s.frame.ip]? with
    | none => rfl
    | some word =>
      cases hop : Opcode.ofWord? word with
      | none => simp only [hop]
      | some op =>
        have hoperand : op.operand?.isSome → s.frame.ip + 1 < s.frame.range.stop →
            code[s.frame.ip + 1]? = p.code[s.frame.ip + 1]? := by
          intro htakes hinside
          apply hcode
          simp [State.reads, hend, hinside, hw, hop, htakes]
        simp only [hop]
        cases op with
        | act action => rfl
        | ret => rfl
        | push => exact State.operand_congr (hoperand rfl) fun _ => rfl
        | popN => exact State.operand_congr (hoperand rfl) fun _ => rfl
        | jump condition => exact State.operand_congr (hoperand rfl) fun _ => rfl
        | call =>
          -- A call looks at the size of the code too, for the block it enters.
          have hcovers : ∀ r, ({ p with code } : Program).covers r = p.covers r := by
            intro r
            simp only [Program.covers, hsize]
          refine State.operand_congr (hoperand rfl) fun index => ?_
          simp only [State.call, hcovers]

/-- A step from a frame inside the code reads words of the code only, and moves over them without
leaving the code. -/
theorem Frame.Inside.reads_lt {p : Program} {s : State} (h : s.frame.Inside p) :
    (∀ o ∈ s.reads p, o < p.code.size) ∧ s.frame.ip + (s.reads p).length ≤ p.code.size := by
  obtain ⟨hlow, hhigh, hcode⟩ := h
  simp only [State.reads]
  by_cases hend : s.frame.range.stop ≤ s.frame.ip
  · simp only [if_pos hend, List.length_nil]
    exact ⟨nofun, by omega⟩
  · simp only [if_neg hend]
    split
    · next hoperand =>
      refine ⟨?_, by simp only [List.length_cons, List.length_nil]; omega⟩
      intro o ho
      simp only [List.mem_cons, List.not_mem_nil, or_false] at ho
      omega
    · refine ⟨?_, by simp only [List.length_cons, List.length_nil]; omega⟩
      intro o ho
      simp only [List.mem_cons, List.not_mem_nil, or_false] at ho
      omega

/-- Every state that any session on any program goes through is in bounds, and the step from it
reads words of the code only. -/
theorem visited_state_in_bounds (p : Program) (limits : Limits) (calls : List Call) (m : Machine)
    (hserves : (Machine.new p limits).Serves calls m) (c : Call) (s : State)
    (hvisits : m.Visits c s) :
    (∀ f ∈ s.frames,
      f.range.start ≤ f.ip ∧ f.ip ≤ f.range.stop ∧ f.range.stop ≤ p.code.size) ∧
    s.frames.length ≤ limits.maxCallDepth ∧
    s.stack.depth ≤ limits.stackCapacity ∧
    (∀ o ∈ s.reads p, o < p.code.size) ∧
    s.frame.ip + (s.reads p).length ≤ p.code.size ∧
    (∀ code : Array Nat, code.size = p.code.size → (∀ o ∈ s.reads p, code[o]? = p.code[o]?) →
      step { p with code } limits.maxCallDepth s = step p limits.maxCallDepth s) := by
  have g := inBounds_guarantee p limits.maxCallDepth limits.stackCapacity (fun _ => True)
    (fun _ => trivial) fun _ _ => trivial
  have hempty := Stack.holds_empty limits.stackCapacity fun _ => True
  obtain ⟨stack, rfl, hstack⟩ := g.serves hserves rfl rfl hempty fun _ _ => trivial
  have hbounds := g.visits hstack trivial hvisits
  have hreads := Frame.Inside.reads_lt (hbounds.frames s.frame List.mem_cons_self)
  exact ⟨hbounds.frames, hbounds.count_le, hbounds.stack.depth_le, hreads.1, hreads.2,
    fun _ hsize hcode => step_eq_of_reads hsize hcode⟩

/-- A jump to its own operand word, which is then read as a call of the block around it. -/
theorem visited_state_in_bounds_self_jump :
    let p : Program := ⟨#[5, 1, 0], #[], #[⟨0, 3⟩, ⟨9, 2⟩]⟩
    let m : Machine := ⟨p, 2, .empty 4⟩
    let s : State := ⟨.empty 4, .enter ⟨0, 3⟩ 2, [⟨3, ⟨1, 3⟩, 1⟩]⟩
    (Machine.new p ⟨4, 2⟩).Serves [.run] m ∧ m.Visits (.execute ⟨1, 3⟩) s ∧
      (∀ f ∈ s.frames,
        f.range.start ≤ f.ip ∧ f.ip ≤ f.range.stop ∧ f.range.stop ≤ p.code.size) ∧
      s.frames.length ≤ 2 ∧ s.reads p = [0, 1] ∧ ∀ o ∈ s.reads p, o < p.code.size := by
  intro p m s
  have hanswer : (Machine.new p ⟨4, 2⟩).answer 4 .run =
      .stopped (.error (.callDepth 2)) (.empty 4) := rfl
  have hserves : (Machine.new p ⟨4, 2⟩).Serves [.run] m := .cons hanswer (.nil _)
  have hvisits : m.Visits (.execute ⟨1, 3⟩) s :=
    ⟨⟨.empty 4, .enter ⟨1, 3⟩ 1, []⟩, rfl, .single rfl⟩
  have hbounds := visited_state_in_bounds p ⟨4, 2⟩ [.run] m hserves (.execute ⟨1, 3⟩) s hvisits
  exact ⟨hserves, hvisits, hbounds.1, hbounds.2.1, rfl, hbounds.2.2.2.1⟩

end BlockMachine
