import BlockMachine.Program.Decoding
import BlockMachine.Proofs.FailingSteps

/-! # The machine executes what the decoder reads

The machine and the decoder read the code independently of each other: the decoder knows the number
of operands of every opcode, and the machine reads an operand where it needs one.  They agree at
every offset in front of the end of a block, whether or not an instruction was meant to start there.

* `ReadsItem` — what the words at an offset are read as;
* `State.carryOut` — what an instruction does that is given with its operand;
* `step_follows_decoded_item` — the step of the machine is told by the item that is decoded.
-/

namespace BlockMachine

/-! ## Items -/

/-- What stands at the offset `pos` of a range that ends at `stop`. -/
inductive ReadsItem (code : Array Nat) (pos stop : Nat) : Item → Prop
  | unknown {word : Nat} (hword : code[pos]? = some word) (hop : Opcode.ofWord? word = none) :
      ReadsItem code pos stop (.unknown pos word)
  | plain {op : Opcode} (hword : code[pos]? = some op.word) (hop : op.operand? = none) :
      ReadsItem code pos stop (.instruction pos op none)
  | operand {op : Opcode} {word : Nat} (hword : code[pos]? = some op.word)
      (hop : op.operand?.isSome) (hinside : pos + 1 < stop)
      (hoperand : code[pos + 1]? = some word) :
      ReadsItem code pos stop (.instruction pos op (some word))
  | truncated {op : Opcode} (hword : code[pos]? = some op.word) (hop : op.operand?.isSome)
      (hend : stop = pos + 1) : ReadsItem code pos stop (.truncated pos op)

theorem itemAt?_reads {code : Array Nat} {pos stop : Nat} (hpos : pos < stop)
    (hstop : stop ≤ code.size) :
    ∃ item, itemAt? code pos stop = some item ∧ ReadsItem code pos stop item := by
  have hword : code[pos]? = some code[pos] := Array.getElem?_eq_getElem (by omega)
  cases hop : Opcode.ofWord? code[pos] with
  | none => exact ⟨_, by simp [itemAt?, hword, hop], .unknown hword hop⟩
  | some op =>
    rw [← Opcode.word_of_ofWord? hop] at hword
    by_cases hcount : op.operand? = none
    · exact ⟨_, by simp [itemAt?, hword, Opcode.operandCount, hcount], .plain hword hcount⟩
    · have hsome : op.operand?.isSome := Option.isSome_iff_ne_none.2 hcount
      by_cases hinside : pos + 1 < stop
      · have hoperand : code[pos + 1]? = some code[pos + 1] := Array.getElem?_eq_getElem (by omega)
        exact ⟨_, by simp [itemAt?, hword, Opcode.operandCount, hcount, hinside, hoperand],
          .operand hword hsome hinside hoperand⟩
      · exact ⟨_, by simp [itemAt?, hword, Opcode.operandCount, hcount, hinside],
          .truncated hword hsome (by omega)⟩

theorem head?_itemsFrom {code : Array Nat} {pos stop : Nat} (hpos : pos < stop) :
    (itemsFrom code pos stop).head? = itemAt? code pos stop := by
  rw [itemsFrom, if_pos hpos]
  cases itemAt? code pos stop <;> rfl

/-! ## Instructions with their operands -/

/-- The opcode is a jump, and its condition holds of the value on top of the stack. -/
def State.TakesJump (s : State) : Opcode → Prop
  | .jump condition => (condition.test.run s.stack).1 = .ok true
  | _ => False

namespace State

/-- What an instruction does that is given with its operand word, none when it is given a word too
many or too few.  The code is not read; the frame goes on behind the words of the instruction. -/
def carryOut (s : State) (p : Program) (maxCallDepth : Nat) (op : Opcode) (operand : Option Nat) :
    Option Transition :=
  let ip := s.frame.ip + op.width
  match op, operand with
  | .act action, none => some (s.perform action.apply ip)
  | .ret, none => some s.giveBack
  | .push, some index => some (s.pushConstant p index ip)
  | .popN, some index => some (s.popConstant p index ip)
  | .jump condition, some target => some (s.jumpWhen condition target ip)
  | .call, some index => some (s.call p maxCallDepth index ip)
  | _, _ => none

variable {p : Program} {maxCallDepth : Nat} {s after : State} {op : Opcode}

theorem carryOut_plain (hop : op.operand? = none) :
    s.carryOut p maxCallDepth op none = some (s.execute p maxCallDepth op) := by
  cases op with
  | act action => rfl
  | ret => rfl
  | push | popN | jump _ | call => cases hop

theorem carryOut_operand (hop : op.operand?.isSome) {word : Nat}
    (hinside : s.frame.ip + 1 < s.frame.range.stop)
    (hword : p.code[s.frame.ip + 1]? = some word) :
    s.carryOut p maxCallDepth op (some word) = some (s.execute p maxCallDepth op) := by
  have hoperand := operand_of_word hinside hword
  cases op with
  | act action => cases hop
  | ret => cases hop
  | push | popN | jump _ | call => rw [execute, hoperand]; rfl

/-! ## Where the frame goes on -/

theorem frames_of_perform {operation : StackM Unit} {ip : Nat}
    (h : s.perform operation ip = .next after) : after.frames = (s.goto ip).frames := by
  cases hrun : operation.run s.stack with
  | mk r left =>
    cases r with
    | ok u => rw [perform_of_ok hrun] at h; cases h; rfl
    | error f => rw [perform_of_error hrun] at h; cases h

theorem frames_of_pushConstant {index ip : Nat} (h : s.pushConstant p index ip = .next after) :
    after.frames = (s.goto ip).frames := by
  rw [pushConstant] at h
  split at h
  · cases h
  · exact frames_of_perform h

theorem frames_of_popConstant {index ip : Nat} (h : s.popConstant p index ip = .next after) :
    after.frames = (s.goto ip).frames := by
  rw [popConstant] at h
  split at h
  · cases h
  · cases h
  · exact frames_of_perform h

theorem frames_of_jumpWhen {condition : Condition} {target ip : Nat}
    (hjump : ¬ s.TakesJump (.jump condition))
    (h : s.jumpWhen condition target ip = .next after) : after.frames = (s.goto ip).frames := by
  rw [jumpWhen] at h
  split at h
  · cases h
  · next taken _ htest =>
    cases taken with
    | true => exact absurd (congrArg Prod.fst htest) hjump
    | false => cases h; rfl

/-- The block that is called comes on top of the frame that calls it. -/
theorem frames_of_call {index ip : Nat} (h : s.call p maxCallDepth index ip = .next after) :
    after.frames = after.frame :: (s.goto ip).frames := by
  rw [call] at h
  split at h
  · cases h
  · split at h
    · split at h
      · cases h
      · cases h; rfl
    · cases h

theorem frames_of_carryOut {operand : Option Nat}
    (h : s.carryOut p maxCallDepth op operand = some (.next after)) (hret : op ≠ .ret)
    (hjump : ¬ s.TakesJump op) : (s.goto (s.frame.ip + op.width)).frames <:+ after.frames := by
  cases op with
  | ret => exact absurd rfl hret
  | act action =>
    cases operand with
    | none => rw [frames_of_perform (Option.some.inj h)]
    | some word => cases h
  | push =>
    cases operand with
    | none => cases h
    | some index => rw [frames_of_pushConstant (Option.some.inj h)]
  | popN =>
    cases operand with
    | none => cases h
    | some index => rw [frames_of_popConstant (Option.some.inj h)]
  | jump condition =>
    cases operand with
    | none => cases h
    | some target => rw [frames_of_jumpWhen hjump (Option.some.inj h)]
  | call =>
    cases operand with
    | none => cases h
    | some index =>
      rw [frames_of_call (Option.some.inj h)]
      exact List.suffix_cons _ _

end State

/-! ## Steps -/

section

variable {p : Program} {maxCallDepth : Nat} {s : State} {op : Opcode} {f : Fault} {left : Stack}

/-- An instruction may fail in many ways, but not because its opcode is unknown. -/
theorem State.Fails.ne_unknownOpcode (h : s.Fails maxCallDepth op f left) (word offset : Nat) :
    f ≠ .unknownOpcode word offset := by
  rintro rfl
  cases h with
  | action hrun => cases Action.ofOperands_of_error hrun

theorem step_of_unknown (hip : s.frame.ip < s.frame.range.stop) {word : Nat}
    (hword : p.code[s.frame.ip]? = some word) (hop : Opcode.ofWord? word = none) :
    step p maxCallDepth s = .stop (.error (.unknownOpcode word s.frame.ip)) s.stack := by
  simp only [step, if_neg (Nat.not_le.2 hip), hword, hop, State.fault]

/-- The operand would stand at the end of the block, where no word is read. -/
theorem step_of_truncated (hword : p.code[s.frame.ip]? = some op.word) (hop : op.operand?.isSome)
    (hend : s.frame.range.stop = s.frame.ip + 1) :
    step p maxCallDepth s = .stop (.error (.invalidCounter s.frame.range.stop)) s.stack := by
  have hoperand : ∀ next, s.operand p (s.frame.ip + 1) next =
      .stop (.error (.invalidCounter s.frame.range.stop)) s.stack := by
    intro next
    simp only [State.operand, hend, Nat.lt_irrefl, if_false, State.fault]
  rw [step_eq_execute (by omega) hword]
  cases op with
  | act action => cases hop
  | ret => cases hop
  | push | popN | jump _ | call => exact hoperand _

theorem step_of_instruction (maxCallDepth : Nat) (hip : s.frame.ip < s.frame.range.stop)
    {offset : Nat} {operand : Option Nat}
    (h : ReadsItem p.code s.frame.ip s.frame.range.stop (.instruction offset op operand)) :
    step p maxCallDepth s = s.execute p maxCallDepth op ∧
      s.carryOut p maxCallDepth op operand = some (step p maxCallDepth s) := by
  cases h with
  | plain hword hop =>
    have hstep : step p maxCallDepth s = s.execute p maxCallDepth op := step_eq_execute hip hword
    exact ⟨hstep, hstep ▸ State.carryOut_plain hop⟩
  | operand hword hop hinside hoperand =>
    have hstep : step p maxCallDepth s = s.execute p maxCallDepth op := step_eq_execute hip hword
    exact ⟨hstep, hstep ▸ State.carryOut_operand hop hinside hoperand⟩

end

/-- The item that is decoded where the innermost frame stands tells what the step does. -/
theorem step_follows_decoded_item (p : Program) (maxCallDepth : Nat) (s : State)
    (hip : s.frame.ip < s.frame.range.stop) (hcode : s.frame.range.stop ≤ p.code.size) :
    ∃ item, (itemsFrom p.code s.frame.ip s.frame.range.stop).head? = some item ∧
      (∀ word offset left,
        step p maxCallDepth s = .stop (.error (.unknownOpcode word offset)) left ↔
          item = .unknown offset word ∧ left = s.stack) ∧
      (∀ offset op, item = .truncated offset op →
        step p maxCallDepth s = .stop (.error (.invalidCounter s.frame.range.stop)) s.stack) ∧
      ∀ offset op operand, item = .instruction offset op operand →
        offset = s.frame.ip ∧
        s.carryOut p maxCallDepth op operand = some (step p maxCallDepth s) ∧
        ∀ after, step p maxCallDepth s = .next after → op ≠ .ret → ¬ s.TakesJump op →
          (s.goto (s.frame.ip + op.width)).frames <:+ after.frames := by
  obtain ⟨item, hitem, hreads⟩ := itemAt?_reads hip hcode
  refine ⟨item, (head?_itemsFrom hip).trans hitem, ?_, ?_, ?_⟩
  · intro word offset left
    constructor
    · intro hstep
      cases item with
      | unknown offset' word' =>
        cases hreads with
        | unknown hword hop =>
          rw [step_of_unknown hip hword hop] at hstep
          cases hstep
          exact ⟨rfl, rfl⟩
      | truncated offset' op =>
        cases hreads with
        | truncated hword hop hend =>
          rw [step_of_truncated hword hop hend] at hstep
          cases hstep
      | instruction offset' op operand =>
        -- An instruction fails for reasons of its own.
        rw [(step_of_instruction maxCallDepth hip hreads).1] at hstep
        exact absurd rfl ((State.execute_error hstep).ne_unknownOpcode word offset)
    · rintro ⟨rfl, rfl⟩
      cases hreads with
      | unknown hword hop => exact step_of_unknown hip hword hop
  · rintro offset op rfl
    cases hreads with
    | truncated hword hop hend => exact step_of_truncated hword hop hend
  · rintro offset op operand rfl
    have hoffset : offset = s.frame.ip := by
      cases hreads with
      | plain _ _ => rfl
      | operand _ _ _ _ => rfl
    obtain ⟨_, hcarry⟩ := step_of_instruction maxCallDepth hip hreads
    refine ⟨hoffset, hcarry, ?_⟩
    intro after hafter hret hjump
    exact State.frames_of_carryOut (hafter ▸ hcarry) hret hjump

/-- The operand of a jump reads as a call, with the word behind the jump as its operand, or without
one where the block ends in front of that word. -/
theorem step_follows_decoded_item_inside_jump :
    let p : Program := ⟨#[5, 1, 0], #[], #[⟨0, 3⟩]⟩
    let s : State := ⟨.empty 1, ⟨1, ⟨0, 3⟩, 1⟩, []⟩
    let cut : State := ⟨.empty 1, ⟨1, ⟨0, 2⟩, 1⟩, []⟩
    (itemsFrom p.code 1 3).head? = some (.instruction 1 .call (some 0)) ∧
      s.carryOut p 2 .call (some 0) = some (step p 2 s) ∧
      (itemsFrom p.code 1 2).head? = some (.truncated 1 .call) ∧
      step p 2 cut = .stop (.error (.invalidCounter 2)) (.empty 1) := by
  intro p s cut
  have hcall : (itemsFrom p.code 1 3).head? = some (.instruction 1 .call (some 0)) :=
    head?_itemsFrom (by decide)
  have hcut : (itemsFrom p.code 1 2).head? = some (.truncated 1 .call) :=
    head?_itemsFrom (by decide)
  obtain ⟨item, hitem, _, _, hinstruction⟩ :=
    step_follows_decoded_item p 2 s (by decide) (by decide)
  cases hcall.symm.trans hitem
  obtain ⟨item, hitem, _, htruncated, _⟩ :=
    step_follows_decoded_item p 2 cut (by decide) (by decide)
  cases hcut.symm.trans hitem
  exact ⟨hcall, (hinstruction _ _ _ rfl).2.1, hcut, htruncated _ _ rfl⟩

end BlockMachine
