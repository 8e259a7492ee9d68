import BlockMachine.Proofs.BlockSteps
import BlockMachine.Proofs.Bounds
import Mathlib.Tactic.Ring

/-! # Programs without backward jumps stop

Blocks may call themselves and each other without restriction, and they may overlap.  Still a run
can only go on for ever by jumping backwards: when every jump leads behind itself, each word in
front of a frame is executed at most once, and the limit on the frames bounds how often a block is
entered.

* `Program.JumpsForward` — every jump of the code leads behind itself;
* `budget` — a bound on the steps that some frames still have in front of them;
* `step_budget` — every step lowers it;
* `State.run_stops` — so a run stops before it is used up.
-/

namespace BlockMachine

/-- Wherever a jump may stand in the code, the word behind it is a later offset. -/
def Program.JumpsForward (p : Program) : Prop :=
  ∀ offset condition target, p.code[offset]? = some (Opcode.jump condition).word →
    p.code[offset + 1]? = some target → offset < target

theorem Program.jumpsForward_iff {p : Program} :
    p.JumpsForward ↔ ∀ offset < p.code.size, ∀ condition ∈ [Condition.always, .zero, .nonzero],
      p.code[offset]? = some (Opcode.jump condition).word →
        ∀ target ∈ p.code[offset + 1]?.toList, offset < target := by
  constructor
  · intro h offset _ condition _ hword target htarget
    exact h offset condition target hword (Option.mem_toList.1 htarget)
  · intro h offset condition target hword htarget
    have hlt : offset < p.code.size := (Array.getElem?_eq_some_iff.1 hword).1
    have hmem : condition ∈ [Condition.always, .zero, .nonzero] := by
      cases condition <;> decide
    exact h offset hlt condition hmem hword target (Option.mem_toList.2 htarget)

instance (p : Program) : Decidable p.JumpsForward :=
  decidable_of_iff' _ Program.jumpsForward_iff

/-! ## What an instruction does to its frame -/

/-- An instruction at offset `ip` of a block moves on in the block or ends it.  A call has used up
two words of the block, and the block that it enters lies in the code. -/
def BlockStep.Advances (p : Program) (range : Range) (ip : Nat) : BlockStep → Prop
  | next ip' _ => ip < range.stop ∧ ip < ip'
  | call callee ip' => ip + 1 < range.stop ∧ ip' = ip + 2 ∧ p.covers callee
  | stop _ _ => True

section

variable {p : Program} {range : Range} {ip : Nat} (stack : Stack)

theorem BlockStep.perform_advances (hip : ip < range.stop) (operation : StackM Unit) {ip' : Nat}
    (hnext : ip < ip') : (perform operation stack ip').Advances p range ip := by
  simp only [perform]
  cases operation.run stack with
  | mk r left =>
    cases r with
    | ok u => exact ⟨hip, hnext⟩
    | error f => trivial

theorem retStep_advances : (retStep stack).Advances p range ip := by
  simp only [retStep]
  cases Stack.pop.run stack with
  | mk r left =>
    cases r with
    | ok v => trivial
    | error f => trivial

theorem Range.jumpStep_advances (hip : ip < range.stop) (condition : Condition) {target : Nat}
    (htarget : ip < target) :
    (range.jumpStep condition stack target (ip + 2)).Advances p range ip := by
  simp only [jumpStep]
  split
  · trivial
  · exact ⟨hip, by omega⟩
  · split
    · exact ⟨hip, htarget⟩
    · trivial

namespace Program

theorem pushStep_advances (hip : ip < range.stop) (index : Nat) :
    (p.pushStep stack index (ip + 2)).Advances p range ip := by
  simp only [pushStep]
  split
  · trivial
  · exact BlockStep.perform_advances stack hip _ (by omega)

theorem popStep_advances (hip : ip < range.stop) (index : Nat) :
    (p.popStep stack index (ip + 2)).Advances p range ip := by
  simp only [popStep]
  split
  · trivial
  · trivial
  · exact BlockStep.perform_advances stack hip _ (by omega)

theorem callStep_advances (hip : ip + 1 < range.stop) (index : Nat) :
    (p.callStep stack index (ip + 2)).Advances p range ip := by
  simp only [callStep]
  split
  · trivial
  · split
    · next hcovers => exact ⟨hip, rfl, hcovers⟩
    · trivial

theorem operandStep_advances {offset : Nat} {next : Nat → BlockStep}
    (hnext : offset < range.stop → ∀ word, p.code[offset]? = some word →
      (next word).Advances p range ip) :
    (p.operandStep range offset stack next).Advances p range ip := by
  simp only [operandStep]
  split
  · next hinside =>
    split
    · next word hword => exact hnext hinside word hword
    · trivial
  · trivial

theorem opcodeStep_advances (hforward : p.JumpsForward) (hip : ip < range.stop) {op : Opcode}
    (hword : p.code[ip]? = some op.word) :
    (p.opcodeStep range ip stack op).Advances p range ip := by
  cases op with
  | act action => exact BlockStep.perform_advances stack hip _ (by omega)
  | ret => exact retStep_advances stack
  | push => exact operandStep_advances stack fun _ index _ => pushStep_advances stack hip index
  | popN => exact operandStep_advances stack fun _ index _ => popStep_advances stack hip index
  | jump condition =>
    refine operandStep_advances stack fun _ target htarget => ?_
    exact Range.jumpStep_advances stack hip condition (hforward ip condition target hword htarget)
  | call =>
    exact operandStep_advances stack fun hinside index _ => callStep_advances stack hinside index

theorem blockStep_advances (range : Range) (ip : Nat) (stack : Stack) (hforward : p.JumpsForward) :
    (p.blockStep range ip stack).Advances p range ip := by
  simp only [blockStep]
  split
  · trivial
  · next hip =>
    split
    · trivial
    · next word hword =>
      split
      · trivial
      · next op hop =>
        rw [← Opcode.word_of_ofWord? hop] at hword
        exact opcodeStep_advances stack hforward (Nat.not_le.1 hip) hword

end Program

end

/-! ## The budget of frames -/

/-- A bound on the steps that frames still have in front of them.  A frame has to be left in the
end, and every word in front of it may enter a block, which is as long as the code at most. -/
def budget (p : Program) (maxCallDepth : Nat) : List Frame → Nat
  | [] => 0
  | f :: rest =>
    (f.range.stop - f.ip) * (p.code.size + 1) ^ (maxCallDepth - f.depth) + 1 +
      budget p maxCallDepth rest

section

variable {p : Program} {maxCallDepth : Nat}

/-- To enter a block of `n` words costs no more than one word of the block that calls it. -/
theorem entered_budget {size n : Nat} (hn : n ≤ size) (depth : Nat) :
    n * (size + 1) ^ depth + 1 ≤ (size + 1) ^ (depth + 1) := by
  have hpos : 0 < (size + 1) ^ depth := Nat.pow_pos (Nat.succ_pos size)
  calc n * (size + 1) ^ depth + 1
      ≤ size * (size + 1) ^ depth + (size + 1) ^ depth :=
        Nat.add_le_add (Nat.mul_le_mul_right _ hn) hpos
    _ = (size + 1) ^ (depth + 1) := by ring

theorem Program.size_le_of_covers {r : Range} (h : p.covers r) :
    r.stop - r.start ≤ p.code.size := by
  obtain ⟨_, hcode⟩ := Program.covers_iff.1 h
  omega

theorem budget_next {f : Frame} {ip : Nat} (hip : f.ip < f.range.stop) (hnext : f.ip < ip)
    (callers : List Frame) :
    budget p maxCallDepth ({ f with ip } :: callers) < budget p maxCallDepth (f :: callers) := by
  have hless : f.range.stop - ip < f.range.stop - f.ip := by omega
  have hpos : 0 < (p.code.size + 1) ^ (maxCallDepth - f.depth) := Nat.pow_pos (Nat.succ_pos _)
  have hwords := Nat.mul_lt_mul_of_pos_right hless hpos
  simp only [budget]
  omega

theorem budget_call {f : Frame} {callee : Range} (hip : f.ip + 1 < f.range.stop)
    (hcovers : p.covers callee) (hdepth : f.depth < maxCallDepth) (callers : List Frame) :
    budget p maxCallDepth
        (.enter callee (f.depth + 1) :: { f with ip := f.ip + 2 } :: callers) <
      budget p maxCallDepth (f :: callers) := by
  obtain ⟨depth, hrest⟩ := Nat.exists_eq_add_one_of_ne_zero (Nat.sub_ne_zero_of_lt hdepth)
  have hrest' : maxCallDepth - (f.depth + 1) = depth := by omega
  have hentered := entered_budget (Program.size_le_of_covers hcovers) depth
  -- The call has used up two words, and the block that it enters costs less than one of them.
  have hwords : f.range.stop - f.ip = f.range.stop - (f.ip + 2) + 2 := by omega
  have hpos : 0 < (p.code.size + 1) ^ (depth + 1) := Nat.pow_pos (Nat.succ_pos _)
  simp only [budget, Frame.enter, hrest, hrest', hwords, Nat.add_mul]
  omega

theorem frames_of_handBack {result : Result} {stack : Stack} {callers : List Frame} {s : State}
    (h : handBack result stack callers = .next s) : s.frames = callers := by
  cases result with
  | error f => cases h
  | ok value =>
    cases callers with
    | nil => cases h
    | cons caller callers =>
      simp only [handBack] at h
      split at h
      · cases h; rfl
      · cases h

theorem step_budget (hforward : p.JumpsForward) {s s' : State}
    (h : step p maxCallDepth s = .next s') :
    budget p maxCallDepth s'.frames < budget p maxCallDepth s.frames := by
  have hadvances := Program.blockStep_advances s.frame.range s.frame.ip s.stack hforward
  rw [step_eq] at h
  cases hblock : p.blockStep s.frame.range s.frame.ip s.stack with
  | next ip stack =>
    rw [hblock] at h hadvances
    cases h
    exact budget_next hadvances.1 hadvances.2 s.callers
  | stop result stack =>
    rw [hblock] at h
    -- The innermost frame is left, whatever it hands back.
    rw [frames_of_handBack h, State.frames, budget]
    omega
  | call callee ip =>
    rw [hblock] at h hadvances
    obtain ⟨hip, rfl, hcovers⟩ := hadvances
    simp only [State.follow] at h
    split at h
    · cases h
    · next hdepth =>
      cases h
      exact budget_call hip hcovers (Nat.not_le.1 hdepth) s.callers

theorem State.run_stops (hforward : p.JumpsForward) {fuel : Nat} {s : State}
    (hfuel : budget p maxCallDepth s.frames ≤ fuel) :
    ∃ result stack, s.run p maxCallDepth fuel = .stopped result stack := by
  induction fuel generalizing s with
  | zero =>
    simp only [State.frames, budget] at hfuel
    omega
  | succ fuel ih =>
    rw [State.run]
    cases hstep : step p maxCallDepth s with
    | stop result stack => exact ⟨result, stack, rfl⟩
    | next s' =>
      have hless := step_budget hforward hstep
      exact ih (by omega)

/-! ## Calls -/

theorem Machine.execute_stops (hforward : p.JumpsForward) (stack : Stack) (r : Range) {fuel : Nat}
    (hfuel : (p.code.size + 1) ^ maxCallDepth ≤ fuel) :
    ∃ result left, (Machine.mk p maxCallDepth stack).execute fuel r = .stopped result left := by
  simp only [execute]
  cases hstart : (Machine.mk p maxCallDepth stack).start r with
  | error f => exact ⟨_, _, rfl⟩
  | ok s =>
    obtain ⟨hcovers, hzero, rfl⟩ := start_eq_ok hstart
    obtain ⟨depth, rfl⟩ := Nat.exists_eq_add_one_of_ne_zero hzero
    have hentered := entered_budget (Program.size_le_of_covers hcovers) depth
    refine State.run_stops hforward (Nat.le_trans ?_ hfuel)
    simpa [State.frames, budget, Frame.enter] using hentered

theorem Machine.answer_stops (hforward : p.JumpsForward) (stack : Stack) (c : Call) {fuel : Nat}
    (hfuel : (p.code.size + 1) ^ maxCallDepth ≤ fuel) :
    ∃ result left, (Machine.mk p maxCallDepth stack).answer fuel c = .stopped result left := by
  cases c with
  | execute r => exact execute_stops hforward stack r hfuel
  | run =>
    simp only [answer, Machine.run]
    cases p.entry? with
    | none => exact ⟨_, _, rfl⟩
    | some r => exact execute_stops hforward stack.clear r hfuel

end

/-- Backward jumps are the only way to go on for ever: when every jump leads behind itself, every
call stops, with one and the same answer for all fuel from a bound on that the program and the
limit on the frames give. -/
theorem answer_stops_of_forward_jumps (p : Program) (hforward : p.JumpsForward)
    (maxCallDepth : Nat) (stack : Stack) (c : Call) :
    ∃ result left, ∀ fuel, (p.code.size + 1) ^ maxCallDepth ≤ fuel →
      (Machine.mk p maxCallDepth stack).answer fuel c = .stopped result left := by
  obtain ⟨result, left, hstops⟩ :=
    Machine.answer_stops hforward stack c (Nat.le_refl ((p.code.size + 1) ^ maxCallDepth))
  refine ⟨result, left, ?_⟩
  intro fuel hfuel
  obtain ⟨result', left', hstops'⟩ := Machine.answer_stops hforward stack c hfuel
  cases Machine.answer_unique hstops hstops'
  exact hstops'

/-- A block that calls itself twice as long as the value on top is not zero.  One of its operands
reads as a jump, too. -/
theorem answer_stops_of_forward_jumps_double_call :
    let p : Program := ⟨#[6, 7, 10, 1, 0, 1, 0], #[], #[⟨0, 7⟩]⟩
    let stack : Stack := ⟨1, #[.integer 2]⟩
    p.JumpsForward ∧
      (Machine.mk p 3 stack).answer 16 (.execute ⟨0, 7⟩) =
        .stopped (.ok none) ⟨1, #[.integer 0]⟩ ∧
      ∃ result left, ∀ fuel, 8 ^ 3 ≤ fuel →
        (Machine.mk p 3 stack).answer fuel (.execute ⟨0, 7⟩) = .stopped result left := by
  intro p stack
  have hforward : p.JumpsForward := by decide
  exact ⟨hforward, rfl, answer_stops_of_forward_jumps p hforward 3 stack (.execute ⟨0, 7⟩)⟩

end BlockMachine
