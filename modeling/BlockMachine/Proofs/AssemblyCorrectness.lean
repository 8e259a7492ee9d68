import BlockMachine.Proofs.Bounds
import BlockMachine.Proofs.EmittedCode
import BlockMachine.Proofs.SourceMachine

/-! # Assembled blocks do what the blocks mean

The machine on assembled code and the source machine on the blocks go through corresponding
states.  Their counters differ: a mark is an instruction of the source and no word of the code, so
one step of the machine is answered by steps over marks and then one more.

* `Frame.StandsAt`, `Simulates` — a frame stands at a place of the source, and all frames do;
* `Assembled.step_simulated` — one step, from a place that is not at a mark;
* `Assembled.answered` — one step, from any place;
* `Assembled.execute_stopped_iff` — executing a block gives an answer exactly when the source
  machine gives it.
-/

namespace BlockMachine

open StateTransition

/-! ## Frames and places -/

def Frame.StandsAt (blocks : List FlatBlock) (f : Frame) (q : Place) : Prop :=
  ∃ b, blocks[q.block]? = some b ∧ q.index ≤ b.instructions.length ∧
    f.range = blockRange blocks q.block ∧
    f.ip = blockStart blocks q.block + wordCount (b.instructions.take q.index)

structure Simulates (blocks : List FlatBlock) (s : State) (t : SourceState) : Prop where
  stack : s.stack = t.stack
  frame : s.frame.StandsAt blocks t.place
  callers : List.Forall₂ (Frame.StandsAt blocks) s.callers t.callers
  counted : Counted s.frames

namespace Frame.StandsAt

variable {blocks : List FlatBlock} {f : Frame} {q : Place} {b : FlatBlock} {i : Instruction}

theorem inside (h : f.StandsAt blocks q) : f.range.start ≤ f.ip ∧ f.ip ≤ f.range.stop := by
  obtain ⟨b, hb, _, hrange, hip⟩ := h
  have hle := wordCount_take_le b.instructions q.index
  rw [hrange, hip]
  simp only [blockRange, blockStart_succ hb]
  omega

theorem fits (h : f.StandsAt blocks q) (hb : blocks[q.block]? = some b)
    (hi : b.instructions[q.index]? = some i) : f.ip + i.width ≤ f.range.stop := by
  obtain ⟨b', hb', _, hrange, hip⟩ := h
  cases hb.symm.trans hb'
  have hle := wordCount_take_le b.instructions (q.index + 1)
  rw [wordCount_take_succ hi] at hle
  rw [hrange, hip]
  simp only [blockRange, blockStart_succ hb]
  omega

theorem next (h : f.StandsAt blocks q) (hb : blocks[q.block]? = some b)
    (hi : b.instructions[q.index]? = some i) {ip : Nat} (hip : ip = f.ip + i.width) :
    ({ f with ip } : Frame).StandsAt blocks q.next := by
  obtain ⟨b', hb', _, hrange, hf⟩ := h
  cases hb.symm.trans hb'
  refine ⟨b, hb, (List.getElem?_eq_some_iff.1 hi).1, hrange, ?_⟩
  simp only [Place.next, hip, hf, wordCount_take_succ hi, Nat.add_assoc]

theorem jump (h : f.StandsAt blocks q) (hb : blocks[q.block]? = some b) {name : String}
    {index : Nat} (hmark : lastMark? name b.instructions = some index) {ip : Nat}
    (hip : ip = blockStart blocks q.block + wordCount (b.instructions.take index)) :
    ({ f with ip } : Frame).StandsAt blocks { q with index } := by
  obtain ⟨_, _, _, hrange, _⟩ := h
  obtain ⟨before, mark, after, hsplit, rfl, _⟩ := lastMark?_eq_some hmark
  refine ⟨b, hb, ?_, hrange, hip⟩
  simp [hsplit]

end Frame.StandsAt

theorem Frame.enter_standsAt {blocks : List FlatBlock} {block : Nat} (h : block < blocks.length)
    (depth : Nat) : (Frame.enter (blockRange blocks block) depth).StandsAt blocks ⟨block, 0⟩ :=
  ⟨blocks[block], List.getElem?_eq_getElem h, Nat.zero_le _, rfl, rfl⟩

/-! ## What the parts of a step do on both sides -/

namespace Simulates

open Phase

variable {blocks : List FlatBlock} {s : State} {t : SourceState}

theorem depth_eq (h : Simulates blocks s t) : s.frame.depth = t.callers.length + 1 := by
  have hcount : s.frame.depth = s.callers.length + 1 := h.counted.1
  rw [hcount, h.callers.length_eq]

theorem move (h : Simulates blocks s t) {ip : Nat} {place : Place}
    (hframe : ({ s.frame with ip } : Frame).StandsAt blocks place) (stack : Stack) :
    Simulates blocks ⟨stack, { s.frame with ip }, s.callers⟩ ⟨stack, place, t.callers⟩ :=
  ⟨rfl, hframe, h.callers, h.counted⟩

theorem goto (h : Simulates blocks s t) {ip : Nat} {place : Place}
    (hframe : ({ s.frame with ip } : Frame).StandsAt blocks place) :
    Simulates blocks (s.goto ip) { t with place } :=
  ⟨h.stack, hframe, h.callers, h.counted⟩

theorem perform (h : Simulates blocks s t) {ip : Nat}
    (hnext : ({ s.frame with ip } : Frame).StandsAt blocks t.place.next)
    (operation : StackM Unit) :
    Related (Simulates blocks) (s.perform operation ip).phase (t.perform operation) := by
  simp only [SourceState.perform]
  rw [← h.stack]
  cases hrun : operation.run s.stack with
  | mk r left =>
    cases r with
    | ok u => rw [State.perform_of_ok hrun]; exact .running (h.move hnext left)
    | error f => rw [State.perform_of_error hrun]; exact .stopped

theorem leave (h : Simulates blocks s t) :
    Related (Simulates blocks) s.leave.phase t.leave := by
  obtain ⟨stack, frame, callers⟩ := s
  obtain ⟨stack', place, callers'⟩ := t
  obtain ⟨rfl, hframe, hcallers, hcounted⟩ := h
  cases hcallers with
  | nil => exact .stopped
  | cons hcaller hrest => exact .running ⟨rfl, hcaller, hrest, hcounted.2⟩

theorem giveBack (h : Simulates blocks s t) :
    Related (Simulates blocks) s.giveBack.phase t.giveBack := by
  obtain ⟨stack, frame, callers⟩ := s
  obtain ⟨stack', place, callers'⟩ := t
  obtain ⟨rfl, hframe, hcallers, hcounted⟩ := h
  simp only [State.giveBack, SourceState.giveBack]
  cases hpop : Stack.pop.run stack with
  | mk r left =>
    cases r with
    | error f => exact .stopped
    | ok v =>
      cases hcallers with
      | nil => exact .stopped
      | cons hcaller hrest =>
        simp only
        cases hpush : (Stack.push v).run left with
        | mk r left' =>
          cases r with
          | error f => exact .stopped
          | ok u => exact .running ⟨rfl, hcaller, hrest, hcounted.2⟩

theorem jumpWhen (h : Simulates blocks s t) (condition : Condition) {target ip index : Nat}
    (htarget : ({ s.frame with ip := target } : Frame).StandsAt blocks { t.place with index })
    (hnext : ({ s.frame with ip } : Frame).StandsAt blocks t.place.next) :
    Related (Simulates blocks) (s.jumpWhen condition target ip).phase
      (t.jumpWhen condition index) := by
  -- A target that stands at a place of the block passes the check of the machine.
  have hinside : s.frame.range.start ≤ target ∧ target ≤ s.frame.range.stop := htarget.inside
  simp only [State.jumpWhen, SourceState.jumpWhen]
  rw [h.stack]
  cases hrun : condition.test.run t.stack with
  | mk r left =>
    cases r with
    | error f =>
      show Related _ (stopped (.error f) s.stack) (stopped (.error f) t.stack)
      rw [h.stack]
      exact .stopped
    | ok taken =>
      cases taken with
      | true =>
        simp only [State.jump, if_pos hinside, if_true]
        exact .running (h.goto htarget)
      | false => exact .running (h.goto hnext)

theorem call (h : Simulates blocks s t) {p : Program} {slot block : Nat}
    (hslot : p.blocks[slot]? = some (blockRange blocks block))
    (hcovers : p.covers (blockRange blocks block)) (hblock : block < blocks.length) {ip : Nat}
    (hnext : ({ s.frame with ip } : Frame).StandsAt blocks t.place.next) (maxCallDepth : Nat) :
    Related (Simulates blocks) (s.call p maxCallDepth slot ip).phase
      (t.call maxCallDepth block) := by
  simp only [State.call, SourceState.call, hslot, if_pos hcovers, h.depth_eq]
  by_cases hdepth : maxCallDepth ≤ t.callers.length + 1
  · rw [if_pos hdepth, if_pos hdepth, State.fault, h.stack]
    exact .stopped
  · rw [if_neg hdepth, if_neg hdepth]
    -- The caller goes on behind the call, on both sides.
    have hcaller := h.goto hnext
    refine .running ⟨h.stack, Frame.enter_standsAt hblock _, .cons hcaller.frame h.callers, ?_⟩
    refine ⟨?_, hcaller.counted⟩
    rw [List.length_cons, h.callers.length_eq]
    rfl

/-- In front of a mark the source machine can go on alone. -/
theorem skip_mark (h : Simulates blocks s t) {b : FlatBlock} {i : Instruction}
    (hb : blocks[t.place.block]? = some b) (hi : b.instructions[t.place.index]? = some i)
    (hmark : i.mnemonic = .mark) (maxCallDepth : Nat) :
    sourceStep blocks maxCallDepth t = some (.running { t with place := t.place.next }) ∧
      Simulates blocks s { t with place := t.place.next } := by
  constructor
  · rw [sourceStep_of_instruction hb hi, SourceState.execute, hmark]
  · have hwidth : s.frame.ip = s.frame.ip + i.width := by
      simp [Instruction.width, hmark, Mnemonic.opcode?]
    exact ⟨h.stack, h.frame.next hb hi hwidth, h.callers, h.counted⟩

theorem skip_marks (h : Simulates blocks s t) (maxCallDepth : Nat) :
    ∃ t' b, Reaches (next (sourceStep blocks maxCallDepth)) (running t) (running t') ∧
      Simulates blocks s t' ∧ blocks[t'.place.block]? = some b ∧
      ∀ i, b.instructions[t'.place.index]? = some i → i.mnemonic ≠ .mark := by
  obtain ⟨b, hb, -⟩ := h.frame
  -- The induction is on the number of instructions up to the end of the block.
  generalize hn : b.instructions.length - t.place.index = n
  induction n generalizing t with
  | zero =>
    refine ⟨t, b, .refl, h, hb, ?_⟩
    intro i hi
    have hlt := (List.getElem?_eq_some_iff.1 hi).1
    omega
  | succ n ih =>
    by_cases hmark : ∃ i, b.instructions[t.place.index]? = some i ∧ i.mnemonic = .mark
    · obtain ⟨i, hi, hmark⟩ := hmark
      obtain ⟨hstep, hnext⟩ := h.skip_mark hb hi hmark maxCallDepth
      have hrest : b.instructions.length - t.place.next.index = n := by
        simp only [Place.next]
        omega
      obtain ⟨t', b', hreach, hsim, hb', hcoded⟩ := ih hnext hb hrest
      exact ⟨t', b', hreach.head hstep, hsim, hb', hcoded⟩
    · exact ⟨t, b, .refl, h, hb, fun i hi hi' => hmark ⟨i, hi, hi'⟩⟩

end Simulates

/-! ## Steps -/

/-- An opcode with its operand behind it is executed with this operand. -/
theorem step_eq_execute_operand {p : Program} {s : State} {op : Opcode} {operand : Nat}
    (hfits : s.frame.ip + [op.word, operand].length ≤ s.frame.range.stop)
    (hcode : ∀ j < [op.word, operand].length,
      p.code[s.frame.ip + j]? = [op.word, operand][j]?) (maxCallDepth : Nat) :
    step p maxCallDepth s = s.execute p maxCallDepth op ∧
      ∀ next, s.operand p (s.frame.ip + 1) next = next operand := by
  have hstop : s.frame.ip + 1 < s.frame.range.stop := hfits
  have hopcode : p.code[s.frame.ip]? = some op.word := hcode 0 Nat.zero_lt_two
  have hoperand : p.code[s.frame.ip + 1]? = some operand := hcode 1 Nat.one_lt_two
  exact ⟨step_eq_execute (Nat.lt_of_succ_lt hstop) hopcode, State.operand_of_word hstop hoperand⟩

namespace Assembled

open Phase

variable {blocks : List FlatBlock} {entry : Nat} {layout : Layout} {pool : List Int32}
  {p : Program} {s : State} {t : SourceState}

theorem covers (h : Assembled blocks entry layout pool p) {i : Nat} (hi : i < blocks.length) :
    p.covers (blockRange blocks i) :=
  Program.covers_iff.2 (h.blockRange_ordered hi)

/-- In front of an instruction that is not a mark both machines make one step. -/
theorem step_simulated (h : Assembled blocks entry layout pool p) (hst : Simulates blocks s t)
    {b : FlatBlock} (hb : blocks[t.place.block]? = some b)
    (hcoded : ∀ i, b.instructions[t.place.index]? = some i → i.mnemonic ≠ .mark)
    (maxCallDepth : Nat) :
    ∃ ph, sourceStep blocks maxCallDepth t = some ph ∧
      Related (Simulates blocks) (step p maxCallDepth s).phase ph := by
  obtain ⟨b', hb', hindex, hrange, hip⟩ := hst.frame
  cases hb.symm.trans hb'
  cases hi : b.instructions[t.place.index]? with
  | none =>
    -- All words of the block lie in front, so the machine stands at its end too.
    refine ⟨_, sourceStep_of_end hb hi, ?_⟩
    have hend : s.frame.range.stop ≤ s.frame.ip := by
      rw [hrange, hip, List.take_of_length_le (List.getElem?_eq_none_iff.1 hi)]
      exact (blockStart_succ hb).le
    rw [step, if_pos hend]
    exact hst.leave
  | some i =>
    rw [sourceStep_of_instruction hb hi]
    obtain ⟨words, hemits, hcode⟩ := h.code_at hb hi
    rw [← hip] at hcode
    have hfits := hst.frame.fits hb hi
    have hnext {ip : Nat} (hip : ip = s.frame.ip + i.width) :
        ({ s.frame with ip } : Frame).StandsAt blocks t.place.next := hst.frame.next hb hi hip
    -- From here on the words that were emitted decide what the machine does.
    rw [← hemits.length_eq] at hfits hnext
    cases hemits with
    | mark => exact absurd rfl (hcoded _ hi)
    | @plain op position hop =>
      rw [step_eq_execute hfits (hcode 0 (Nat.zero_lt_one))]
      cases op with
      | ret => exact ⟨_, rfl, hst.giveBack⟩
      | act action => exact ⟨_, rfl, hst.perform (hnext rfl) action.apply⟩
      | call | push | popN | jump _ => cases hop
    | @literal op n position place hop hplace =>
      obtain ⟨hstep, hoperand⟩ := step_eq_execute_operand hfits hcode maxCallDepth
      rw [hstep]
      cases op with
      | push =>
        rw [State.execute, hoperand, State.pushConstant, h.constant_at hplace]
        exact ⟨_, rfl, hst.perform (hnext rfl) _⟩
      | popN =>
        rw [State.execute, hoperand, State.popConstant, h.constant_at hplace]
        exact ⟨_, rfl, hst.perform (hnext rfl) _⟩
      | ret | call | jump _ | act _ => cases hop
    | @jump condition name position target htarget =>
      obtain ⟨hstep, hoperand⟩ := step_eq_execute_operand hfits hcode maxCallDepth
      rw [hstep, State.execute, hoperand]
      rw [h.places.marks _ b name hb] at htarget
      obtain ⟨index, hmark, htarget⟩ := Option.map_eq_some_iff.1 htarget
      refine ⟨t.jumpWhen condition index, ?_, ?_⟩
      · simp only [SourceState.execute, hmark, Option.map_some]
      · exact hst.jumpWhen condition (hst.frame.jump hb hmark htarget.symm) (hnext rfl)
    | @call name position slot hslot =>
      obtain ⟨hstep, hoperand⟩ := step_eq_execute_operand hfits hcode maxCallDepth
      rw [hstep, State.execute, hoperand]
      rw [h.places.labels] at hslot
      obtain ⟨block, hblock, rfl⟩ := Option.map_eq_some_iff.1 hslot
      have hlt : block < blocks.length := (List.findIdx?_eq_some_iff_getElem.1 hblock).1
      refine ⟨t.call maxCallDepth block, ?_, ?_⟩
      · simp only [SourceState.execute, hblock, Option.map_some]
      · exact hst.call (h.block_at hlt) (h.covers hlt) hlt (hnext rfl) maxCallDepth

theorem answered (h : Assembled blocks entry layout pool p) (maxCallDepth : Nat) :
    Answered (advance p maxCallDepth) (sourceStep blocks maxCallDepth) (Simulates blocks) := by
  intro s t hst
  -- The steps over marks come first, so that there is at least one step.
  obtain ⟨t', b, hmarks, hst', hb, hcoded⟩ := hst.skip_marks maxCallDepth
  obtain ⟨ph, hstep, hrelated⟩ := h.step_simulated hst' hb hcoded maxCallDepth
  exact ⟨_, ph, rfl, hrelated, .tail' hmarks hstep⟩

end Assembled

/-! ## Runs -/

theorem Simulates.start {blocks : List FlatBlock} {block : Nat} (hblock : block < blocks.length)
    (stack : Stack) :
    Simulates blocks ⟨stack, .enter (blockRange blocks block) 1, []⟩ ⟨stack, ⟨block, 0⟩, []⟩ :=
  ⟨rfl, Frame.enter_standsAt hblock 1, .nil, rfl, trivial⟩

namespace Assembled

variable {blocks : List FlatBlock} {entry : Nat} {layout : Layout} {pool : List Int32}
  {p : Program}

theorem execute_stopped_iff (h : Assembled blocks entry layout pool p) {block : Nat}
    (hblock : block < blocks.length) (maxCallDepth : Nat) (stack : Stack) {result : Result}
    {left : Stack} :
    (∃ fuel, (Machine.mk p maxCallDepth stack).execute fuel (blockRange blocks block) =
        .stopped result left) ↔
      ∃ fuel, sourceExecute blocks maxCallDepth stack block fuel = .stopped result left := by
  simp only [Machine.execute, Machine.start, if_pos (h.covers hblock), sourceExecute, sourceStart]
  by_cases hzero : maxCallDepth = 0
  · simp only [if_pos hzero]
  · simp only [if_neg hzero]
    rw [run_stopped_iff_reaches, Phase.run_stopped_iff]
    exact (h.answered maxCallDepth).stopped_iff (.start hblock stack)

/-- The source machine is never stuck in the blocks of an assembled program. -/
theorem source_progress (h : Assembled blocks entry layout pool p) {block : Nat}
    (hblock : block < blocks.length) {maxCallDepth : Nat} {stack : Stack} {t : SourceState}
    (hreach : Reaches (Phase.next (sourceStep blocks maxCallDepth))
      (sourceStart maxCallDepth stack block) (.running t)) :
    ∃ ph, sourceStep blocks maxCallDepth t = some ph := by
  simp only [sourceStart] at hreach
  by_cases hzero : maxCallDepth = 0
  · rw [if_pos hzero] at hreach
    cases Phase.eq_of_reaches_stopped hreach
  · rw [if_neg hzero] at hreach
    exact (h.answered maxCallDepth).progress (.start hblock stack) hreach

end Assembled

/-- A run of an assembled program stops exactly when the run of its blocks on the source machine
does, with the same result and the same stack; and the source machine is never stuck. -/
theorem assembled_run_stops_iff_source_run_stops (blocks : List FlatBlock) (entry : String)
    (p : Program) (hassembles : assembleBlocks blocks entry = .ok p) (limits : Limits) :
    (∀ result stack, (∃ fuel, p.run limits fuel = .stopped result stack) ↔
      ∃ fuel, sourceRun blocks entry limits fuel = .stopped result stack) ∧
    ∃ block, (blocks.findIdx? fun b => b.label == entry) = some block ∧
      ∀ t, Reaches (Phase.next (sourceStep blocks limits.maxCallDepth))
          (sourceStart limits.maxCallDepth (.empty limits.stackCapacity) block) (.running t) →
        ∃ ph, sourceStep blocks limits.maxCallDepth t = some ph := by
  obtain ⟨block, layout, pool, hentry, h⟩ := assembled_of_assembleBlocks hassembles
  have hlt := h.places.entry_lt
  refine ⟨?_, block, hentry, fun t => h.source_progress hlt⟩
  intro result stack
  have hsource : ∀ fuel, sourceRun blocks entry limits fuel =
      sourceExecute blocks limits.maxCallDepth (.empty limits.stackCapacity) block fuel := by
    intro fuel
    rw [sourceRun, hentry]
  have hrun : ∀ fuel, p.run limits fuel =
      (Machine.mk p limits.maxCallDepth (.empty limits.stackCapacity)).execute fuel
        (blockRange blocks block) := by
    intro fuel
    simp only [Program.run, Machine.run, Machine.new, h.entry_block]
    rfl
  simp only [hsource, hrun]
  exact h.execute_stopped_iff hlt _ _

/-- A loop that counts down in a block which is called, until the value to give back is zero. -/
theorem assembled_run_stops_iff_source_run_stops_countdown :
    let code (m : Mnemonic) (operand : Option Value) : Instruction := ⟨m, operand, .start⟩
    let blocks : List FlatBlock :=
      [⟨"down", [code (.op (.act .dec)) none], 1⟩,
        ⟨"main", [code (.op .push) (some (.integer 2)), code .mark (some (.label "again")),
          code (.op .call) (some (.label "down")),
          code (.op (.jump .nonzero)) (some (.label "again")), code (.op .ret) none], 2⟩]
    let p : Program :=
      ⟨#[10, 2, 0, 1, 1, 7, 3, 0], #[.integer 2], #[⟨1, 8⟩, ⟨0, 1⟩]⟩
    assembleBlocks blocks "main" = .ok p ∧
      (∃ fuel, p.run ⟨1, 2⟩ fuel = .stopped (.ok (some (.integer 0))) (.empty 1)) ∧
      ∃ fuel, sourceRun blocks "main" ⟨1, 2⟩ fuel =
        .stopped (.ok (some (.integer 0))) (.empty 1) := by
  intro code blocks p
  have hassembles : assembleBlocks blocks "main" = .ok p := by decide +kernel
  have hruns : ∃ fuel, p.run ⟨1, 2⟩ fuel = .stopped (.ok (some (.integer 0))) (.empty 1) :=
    ⟨10, rfl⟩
  have hiff := assembled_run_stops_iff_source_run_stops blocks "main" p hassembles ⟨1, 2⟩
  exact ⟨hassembles, hruns, (hiff.1 _ _).1 hruns⟩

end BlockMachine
