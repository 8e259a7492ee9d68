import BlockMachine.Assembly
import BlockMachine.Proofs.AssemblyCorrectness
import BlockMachine.Proofs.DecodedCode

/-! # Assembled programs do not go wrong

A static fault tells of a malformed program: a word that is no opcode, a counter, index or range
that leads nowhere, a label where an integer should be.  No session on an assembled program ends
in one, as long as it runs the program or executes blocks of its table.

The source machine has no counters, indexes and ranges that could be wrong, so it is enough that
its stack holds integers only (`sourceStep_safe`); what it gives is what the machine gives
(`Assembled.answered`).

* `Assembled.safety_guarantee` — throughout a session every state corresponds to one of the source
  machine, on a stack of integers;
* `Assembled.standsAt_boundary` — a frame that stands at a place of the source stands in front of
  an instruction or at the end of its block.
-/

namespace BlockMachine

open StateTransition

def Stack.HoldsIntegers (capacity : Nat) (s : Stack) : Prop :=
  s.Holds capacity fun v => ∃ n, v = .integer n

def Result.Regular (result : Result) : Prop :=
  ∀ f, result = .error f → f.isStatic = false

theorem Result.regular_ok (v : Option Value) : Result.Regular (.ok v) :=
  nofun

theorem Result.regular_error {f : Fault} (h : f.isStatic = false) : Result.Regular (.error f) := by
  rintro _ ⟨⟩
  exact h

/-- A phase of the source machine: integers on the stack, and no static fault in the end. -/
def Phase.Safe (capacity : Nat) (ph : Phase SourceState) : Prop :=
  ph.Meets (fun t => t.stack.HoldsIntegers capacity) fun result stack =>
    result.Regular ∧ stack.HoldsIntegers capacity

/-! ## The source machine -/

/-- On a stack of integers an operation that keeps good values has no static fault. -/
theorem StackM.Preserves.integers {α : Type} {x : StackM α} {result : α → Prop} {capacity : Nat}
    (hx : x.Preserves capacity (fun v => ∃ n, v = .integer n) result) {s : Stack}
    (hs : s.HoldsIntegers capacity) :
    (∃ a left, x.run s = (.ok a, left) ∧ result a ∧ left.HoldsIntegers capacity) ∨
    ∃ f left, x.run s = (.error f, left) ∧ f.isStatic = false ∧ left.HoldsIntegers capacity := by
  have hrun := hx s hs
  cases hresult : x.run s with
  | mk r left =>
    rw [hresult] at hrun
    cases r with
    | ok a => exact .inl ⟨a, left, rfl, hrun⟩
    | error f =>
      refine .inr ⟨f, left, rfl, ?_, hrun.2⟩
      -- A static fault would need a label that is an integer.
      by_contra hstatic
      obtain ⟨name, n, hlabel⟩ := hrun.1 (Bool.not_eq_false _ ▸ hstatic)
      cases hlabel

namespace SourceState

variable {capacity : Nat} {t : SourceState}

theorem perform_safe (h : t.stack.HoldsIntegers capacity) {operation : StackM Unit}
    (hop : operation.Preserves capacity (fun v => ∃ n, v = .integer n) fun _ => True) :
    (t.perform operation).Safe capacity := by
  simp only [perform]
  obtain ⟨_, left, hrun, _, hleft⟩ | ⟨f, left, hrun, hf, hleft⟩ := hop.integers h
  · rw [hrun]
    exact hleft
  · rw [hrun]
    exact ⟨Result.regular_error hf, hleft⟩

theorem leave_safe (h : t.stack.HoldsIntegers capacity) : t.leave.Safe capacity := by
  simp only [leave]
  cases t.callers with
  | nil => exact ⟨Result.regular_ok none, h⟩
  | cons place callers => exact h

theorem giveBack_safe (h : t.stack.HoldsIntegers capacity) : t.giveBack.Safe capacity := by
  simp only [giveBack]
  obtain ⟨v, left, hrun, hv, hleft⟩ | ⟨f, left, hrun, hf, hleft⟩ := Stack.pop_preserves.integers h
  · rw [hrun]
    cases t.callers with
    | nil => exact ⟨Result.regular_ok (some v), hleft⟩
    | cons place callers =>
      obtain ⟨_, left', hrun', _, hleft'⟩ | ⟨f, left', hrun', hf, hleft'⟩ :=
        (Stack.push_preserves hv).integers hleft
      · simp only [hrun']
        exact hleft'
      · simp only [hrun']
        exact ⟨Result.regular_error hf, hleft'⟩
  · rw [hrun]
    exact ⟨Result.regular_error hf, hleft⟩

theorem jumpWhen_safe (h : t.stack.HoldsIntegers capacity) (condition : Condition) (index : Nat) :
    (t.jumpWhen condition index).Safe capacity := by
  simp only [jumpWhen]
  obtain ⟨taken, left, hrun, _, _⟩ | ⟨f, left, hrun, hf, _⟩ :=
    (Condition.test_preserves condition).integers h
  · rw [hrun]
    cases taken with
    | true => exact h
    | false => exact h
  · rw [hrun]
    exact ⟨Result.regular_error hf, h⟩

theorem call_safe (h : t.stack.HoldsIntegers capacity) (maxCallDepth block : Nat) :
    (t.call maxCallDepth block).Safe capacity := by
  simp only [call]
  by_cases hdepth : maxCallDepth ≤ t.callers.length + 1
  · rw [if_pos hdepth]
    exact ⟨Result.regular_error rfl, h⟩
  · rw [if_neg hdepth]
    exact h

theorem execute_safe {blocks : List FlatBlock} {maxCallDepth : Nat} {b : FlatBlock}
    {i : Instruction} {ph : Phase SourceState} (h : t.stack.HoldsIntegers capacity)
    (hstep : t.execute blocks maxCallDepth b i = some ph) : ph.Safe capacity := by
  simp only [execute] at hstep
  split at hstep
  · cases hstep
    exact h
  · cases hstep
    exact giveBack_safe h
  · cases hstep
    exact perform_safe h (Action.apply_preserves (fun n => ⟨n, rfl⟩) _)
  · cases hstep
    exact perform_safe h (Stack.push_preserves ⟨_, rfl⟩)
  · cases hstep
    exact perform_safe h (Stack.popCounted_preserves _)
  · obtain ⟨index, _, rfl⟩ := Option.map_eq_some_iff.1 hstep
    exact jumpWhen_safe h _ index
  · obtain ⟨block, _, rfl⟩ := Option.map_eq_some_iff.1 hstep
    exact call_safe h maxCallDepth block
  · cases hstep

end SourceState

theorem sourceStep_safe {blocks : List FlatBlock} {maxCallDepth capacity : Nat} (t : SourceState)
    (h : t.stack.HoldsIntegers capacity) (ph : Phase SourceState)
    (hstep : sourceStep blocks maxCallDepth t = some ph) : ph.Safe capacity := by
  simp only [sourceStep] at hstep
  split at hstep
  · cases hstep
  · split at hstep
    · cases hstep
      exact SourceState.leave_safe h
    · exact SourceState.execute_safe h hstep

/-! ## Sessions on an assembled program -/

/-- The calls that stay with the blocks of a program. -/
def Call.OnTable (p : Program) : Call → Prop
  | .run => True
  | .execute r => r ∈ p.blocks

theorem Simulates.standsAt {blocks : List FlatBlock} {s : State} {t : SourceState}
    (h : Simulates blocks s t) {f : Frame} (hf : f ∈ s.frames) : ∃ q, f.StandsAt blocks q := by
  cases hf with
  | head => exact ⟨t.place, h.frame⟩
  | tail _ hf =>
    obtain ⟨⟨i, hi⟩, rfl⟩ := List.mem_iff_get.1 hf
    have hi' : i < t.callers.length := h.callers.length_eq ▸ hi
    exact ⟨_, h.callers.get hi hi'⟩

namespace Assembled

variable {blocks : List FlatBlock} {entry : Nat} {layout : Layout} {pool : List Int32}
  {p : Program}

theorem mem_blocks (h : Assembled blocks entry layout pool p) {r : Range} :
    r ∈ p.blocks ↔ ∃ i < blocks.length, r = blockRange blocks i := by
  constructor
  · intro hr
    rw [h.table, List.mem_toArray] at hr
    exact h.places.table_mem r hr
  · rintro ⟨i, hi, rfl⟩
    exact Array.mem_of_getElem? (h.block_at hi)

theorem standsAt_boundary (h : Assembled blocks entry layout pool p) {f : Frame} {q : Place}
    (hf : f.StandsAt blocks q) :
    f.range ∈ p.blocks ∧
      (f.ip = f.range.stop ∨ ∃ op operand, .instruction f.ip op operand ∈ p.items f.range) := by
  obtain ⟨b, hb, _, hrange, hip⟩ := hf
  have hlt : q.block < blocks.length := (List.getElem?_eq_some_iff.1 hb).1
  rw [hrange, hip]
  have hsplit := (List.take_append_drop q.index b.instructions).symm
  exact ⟨h.mem_blocks.2 ⟨q.block, hlt, rfl⟩, h.boundary hb hsplit⟩

/-- A call on the table starts to execute a block of the source. -/
theorem opening_eq (h : Assembled blocks entry layout pool p) {c : Call} (hc : c.OnTable p)
    (maxCallDepth : Nat) (stack : Stack) :
    ∃ block < blocks.length, ∃ stack', (stack' = stack ∨ stack' = stack.clear) ∧
      (Machine.mk p maxCallDepth stack).opening c =
        (Machine.mk p maxCallDepth stack').start (blockRange blocks block) := by
  cases c with
  | run =>
    refine ⟨entry, h.places.entry_lt, stack.clear, .inr rfl, ?_⟩
    simp only [Machine.opening, h.entry_block]
    rfl
  | execute r =>
    obtain ⟨block, hblock, rfl⟩ := h.mem_blocks.1 hc
    exact ⟨block, hblock, stack, .inl rfl, rfl⟩

theorem safety_guarantee (h : Assembled blocks entry layout pool p) (maxCallDepth capacity : Nat) :
    Guarantee p maxCallDepth (Call.OnTable p)
      (fun s => (∃ t, Simulates blocks s t) ∧ s.stack.HoldsIntegers capacity) Result.Regular
      (Stack.HoldsIntegers capacity) where
  clear _ hstack := hstack.clear
  opens stack c s hc hstack hopen := by
    obtain ⟨block, hblock, stack', hstack', heq⟩ := h.opening_eq hc maxCallDepth stack
    obtain ⟨_, _, rfl⟩ := Machine.start_eq_ok (heq.symm.trans hopen)
    refine ⟨⟨_, .start hblock stack'⟩, ?_⟩
    obtain rfl | rfl := hstack'
    · exact hstack
    · exact hstack.clear
  refuses stack c f hc hstack hopen := by
    obtain ⟨block, hblock, stack', _, heq⟩ := h.opening_eq hc maxCallDepth stack
    cases Machine.start_eq_error (h.covers hblock) (heq.symm.trans hopen)
    exact Result.regular_error rfl
  steps s hs := by
    obtain ⟨⟨t, hst⟩, hstack⟩ := hs
    rw [hst.stack] at hstack
    -- The source machine answers the step, and on its way it stays safe.
    obtain ⟨_, ph, ⟨⟩, hrelated, hreach⟩ := h.answered maxCallDepth s t hst
    have hsafe := Phase.meets_of_reaches sourceStep_safe hstack hreach.to_reflTransGen
    generalize (step p maxCallDepth s).phase = ph' at hrelated
    cases hrelated with
    | @running s' t' hst' => exact ⟨⟨t', hst'⟩, hst'.stack ▸ hsafe⟩
    | stopped => exact hsafe

end Assembled

theorem assembleBlocks_of_assemble {source entry : String} {p : Program}
    (h : assemble source entry = .ok p) : ∃ blocks, assembleBlocks blocks entry = .ok p := by
  simp only [assemble] at h
  obtain ⟨tokens, _, h⟩ := bind_eq_ok h
  simp only [assembleTokens] at h
  obtain ⟨tree, _, h⟩ := bind_eq_ok h
  exact ⟨CodeBlock.flattenAll tree, mapError_eq_ok h⟩

/-- No session on an assembled program that runs it or executes blocks of its table ends in a
static fault; every frame stands in front of an instruction of its block or at its end, and all
values on the stack are integers. -/
theorem assembled_sessions_have_no_static_fault (source entry : String) (p : Program)
    (hassembles : assemble source entry = .ok p) (limits : Limits) (calls : List Call)
    (m : Machine) (hserves : (Machine.new p limits).Serves calls m)
    (hcalls : ∀ c ∈ calls, c.OnTable p) (c : Call) (hc : c.OnTable p) :
    (∀ fuel result stack, m.answer fuel c = .stopped result stack →
      (∀ f, result = .error f → f.isStatic = false) ∧
        ∀ v ∈ stack.values, ∃ n, v = .integer n) ∧
    ∀ s, m.Visits c s →
      (∀ f ∈ s.frames, f.range ∈ p.blocks ∧
        (f.ip = f.range.stop ∨
          ∃ op operand, .instruction f.ip op operand ∈ p.items f.range)) ∧
      ∀ v ∈ s.stack.values, ∃ n, v = .integer n := by
  obtain ⟨blocks, hblocks⟩ := assembleBlocks_of_assemble hassembles
  obtain ⟨block, layout, pool, _, h⟩ := assembled_of_assembleBlocks hblocks
  have g := h.safety_guarantee limits.maxCallDepth limits.stackCapacity
  have hempty := Stack.holds_empty limits.stackCapacity fun v => ∃ n, v = .integer n
  obtain ⟨stack, rfl, hstack⟩ := g.serves hserves rfl rfl hempty hcalls
  constructor
  · intro fuel result left hanswer
    obtain ⟨hregular, hleft⟩ := g.answers hstack hc hanswer
    exact ⟨hregular, hleft.values⟩
  · intro s hvisits
    obtain ⟨⟨t, hst⟩, hvalues⟩ := g.visits hstack hc hvisits
    refine ⟨fun f hf => ?_, hvalues.values⟩
    obtain ⟨q, hq⟩ := hst.standsAt hf
    exact h.standsAt_boundary hq

/-- A run that overflows the stack, and then a call that finds the value it has left. -/
theorem assembled_sessions_have_no_static_fault_leftover :
    let source := "m: MARK x PUSH 7 JMP x END m"
    let p : Program := ⟨#[2, 0, 5, 0], #[.integer 7], #[⟨0, 4⟩]⟩
    let m : Machine := ⟨p, 1, ⟨1, #[.integer 7]⟩⟩
    assemble source "m" = .ok p ∧
      m.answer 1 (.execute ⟨0, 4⟩) = .stopped (.error (.stackOverflow 1)) m.stack ∧
      (Fault.stackOverflow 1).isStatic = false ∧
      ∀ s, m.Visits (.execute ⟨0, 4⟩) s →
        (∀ f ∈ s.frames, f.range ∈ p.blocks ∧
          (f.ip = f.range.stop ∨
            ∃ op operand, .instruction f.ip op operand ∈ p.items f.range)) ∧
        ∀ v ∈ s.stack.values, ∃ n, v = .integer n := by
  intro source p m
  have hassembles : assemble source "m" = .ok p := by decide +kernel
  have hrun : (Machine.new p ⟨1, 1⟩).answer 3 .run =
      .stopped (.error (.stackOverflow 1)) ⟨1, #[.integer 7]⟩ := rfl
  have hanswer : m.answer 1 (.execute ⟨0, 4⟩) = .stopped (.error (.stackOverflow 1)) m.stack := rfl
  have hcalls : ∀ c ∈ [Call.run], c.OnTable p := by
    intro c hc
    cases List.mem_singleton.1 hc
    trivial
  have hrange : (⟨0, 4⟩ : Range) ∈ p.blocks := Array.mem_of_getElem? (i := 0) rfl
  have hsafe := assembled_sessions_have_no_static_fault source "m" p hassembles ⟨1, 1⟩ [.run] m
    (.cons hrun (.nil _)) hcalls (.execute ⟨0, 4⟩) hrange
  exact ⟨hassembles, hanswer, (hsafe.1 _ _ _ hanswer).1 _ rfl, hsafe.2⟩

end BlockMachine
