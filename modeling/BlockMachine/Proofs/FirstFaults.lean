import BlockMachine.Proofs.AssemblyFaults
import BlockMachine.Proofs.Outline

/-! # Which fault assembling reports

Blocks can be wrong in several places at once, and one fault is reported.  Which one is said here
without the two walks that look for it: by what an instruction may look like, by what its name may
stand for, and by the order of the source.

* `Instruction.WellFormed` — the instructions that can be assembled if their name stands for
  something;
* `Malformed`, `Dangling` — what can be wrong with an instruction of a block, and its fault;
* `FirstFault` — the fault of the first instruction that something is wrong with;
* `wellFormed_of_readFlat` — an instruction that was read is well-formed;
* `assembling_reports_first_fault` — which of several faults is the one that is reported.
-/

namespace BlockMachine

/-! ## What can be wrong with an instruction -/

inductive Instruction.WellFormed : Instruction → Prop
  | mark {operand : Option Value} {position : Position} : WellFormed ⟨.mark, operand, position⟩
  | plain {op : Opcode} {position : Position} (hop : op = .ret ∨ ∃ action, op = .act action) :
      WellFormed ⟨.op op, none, position⟩
  | number {op : Opcode} {n : Int32} {position : Position} (hop : op = .push ∨ op = .popN) :
      WellFormed ⟨.op op, some (.integer n), position⟩
  | name {op : Opcode} {name : String} {position : Position}
      (hop : op = .call ∨ ∃ condition, op = .jump condition) :
      WellFormed ⟨.op op, some (.label name), position⟩

theorem Instruction.wellFormed_iff {i : Instruction} : i.WellFormed ↔ i.form?.isSome := by
  constructor
  · intro h
    cases h with
    | mark => simp only [form?]; split <;> rfl
    | plain hop => obtain rfl | ⟨action, rfl⟩ := hop <;> rfl
    | number hop => obtain rfl | rfl := hop <;> rfl
    | name hop => obtain rfl | ⟨condition, rfl⟩ := hop <;> rfl
  · intro h
    obtain ⟨form, hform⟩ := Option.isSome_iff_exists.1 h
    cases hasForm_of_form? hform with
    | mark _ => exact .mark
    | @plain op position hop =>
      apply WellFormed.plain
      cases op with
      | ret => exact .inl rfl
      | act action => exact .inr ⟨action, rfl⟩
      | call | push | popN | jump _ => cases hop
    | @literal op n position hop =>
      apply WellFormed.number
      cases op with
      | push => exact .inl rfl
      | popN => exact .inr rfl
      | ret | call | jump _ | act _ => cases hop
    | jump => exact .name (.inr ⟨_, rfl⟩)
    | call => exact .name (.inl rfl)

/-- An instruction that cannot be assembled whatever its name stands for. -/
def Malformed (b : FlatBlock) (i : Instruction) (e : LayoutError) : Prop :=
  ¬ i.WellFormed ∧ e = .invalidInstruction b.label i.text i.position.line

/-- An instruction with a name that stands for nothing: jumps stay in their block, and calls go to
any block. -/
inductive Dangling (blocks : List FlatBlock) (b : FlatBlock) : Instruction → LayoutError → Prop
  | jump {condition : Condition} {name : String} {position : Position}
      (hmarks : ∀ i ∈ b.instructions, i.marks name = false) :
      Dangling blocks b ⟨.op (.jump condition), some (.label name), position⟩
        (.undefinedMark b.label name position.line)
  | call {name : String} {position : Position} (hlabels : ∀ c ∈ blocks, c.label ≠ name) :
      Dangling blocks b ⟨.op .call, some (.label name), position⟩
        (.undefinedBlock name position.line)

namespace FlatBlock

theorem formFault?_eq_some (b : FlatBlock) (i : Instruction) (e : LayoutError) :
    b.formFault? i = some e ↔ Malformed b i e := by
  rw [Malformed, Instruction.wellFormed_iff, formFault?]
  cases i.form? with
  | none => simp [eq_comm]
  | some form => simp

theorem nameFault?_eq_some (blocks : List FlatBlock) (b : FlatBlock) (i : Instruction)
    (e : LayoutError) : b.nameFault? blocks i = some e ↔ Dangling blocks b i e := by
  constructor
  · intro h
    -- Only the forms with a name have a fault here.
    cases hform : i.form? with
    | none => simp [nameFault?, hform] at h
    | some form =>
      have hi := Instruction.hasForm_of_form? hform
      cases hi with
      | mark _ | plain _ | literal _ => simp [nameFault?, hform] at h
      | jump =>
        simp only [nameFault?, hform] at h
        split at h
        · cases h
        · next hnone =>
          cases h
          exact .jump (by simpa using hnone)
      | call =>
        simp only [nameFault?, hform] at h
        split at h
        · cases h
        · next hnone =>
          cases h
          exact .call (by simpa using hnone)
  · intro h
    cases h with
    | jump hmarks => simpa [nameFault?, Instruction.form?] using hmarks
    | call hlabels => simpa [nameFault?, Instruction.form?] using hlabels

end FlatBlock

/-! ## The first fault in source order -/

section Order

variable (wrong : FlatBlock → Instruction → LayoutError → Prop) (blocks : List FlatBlock)

/-- Something is wrong with some instruction. -/
def AnyFault : Prop :=
  ∃ b ∈ blocks, ∃ i ∈ b.instructions, ∃ e, wrong b i e

/-- The fault of an instruction with nothing wrong in the blocks before its own, nor in front of it
in its own. -/
inductive FirstFault (e : LayoutError) : Prop
  | intro {before after : List FlatBlock} {b : FlatBlock} {front back : List Instruction}
      {i : Instruction} (hblocks : blocks = before ++ b :: after)
      (hinstructions : b.instructions = front ++ i :: back) (hwrong : wrong b i e)
      (hbefore : ∀ c ∈ before, ∀ j ∈ c.instructions, ∀ f, ¬ wrong c j f)
      (hfront : ∀ j ∈ front, ∀ f, ¬ wrong b j f)

variable {wrong blocks} {fault : FlatBlock → Instruction → Option LayoutError}
  (h : ∀ b i e, fault b i = some e ↔ wrong b i e)

include h

theorem fault_eq_none (b : FlatBlock) (i : Instruction) :
    fault b i = none ↔ ∀ e, ¬ wrong b i e := by
  simp only [← h, Option.eq_none_iff_forall_ne_some, ne_eq]

theorem findSome?_fault_eq_none :
    (blocks.findSome? fun b => b.instructions.findSome? (fault b)) = none ↔
      ¬ AnyFault wrong blocks := by
  simp only [List.findSome?_eq_none_iff, fault_eq_none h, AnyFault, not_exists, not_and]

theorem findSome?_fault_eq_some {e : LayoutError} :
    (blocks.findSome? fun b => b.instructions.findSome? (fault b)) = some e ↔
      FirstFault wrong blocks e := by
  constructor
  · intro hfind
    obtain ⟨before, b, after, hblocks, hb, hbefore⟩ := List.findSome?_eq_some_iff.1 hfind
    obtain ⟨front, i, back, hinstructions, hi, hfront⟩ := List.findSome?_eq_some_iff.1 hb
    simp only [List.findSome?_eq_none_iff, fault_eq_none h] at hbefore hfront
    exact .intro hblocks hinstructions ((h b i e).1 hi) hbefore hfront
  · rintro ⟨hblocks, hinstructions, hwrong, hbefore, hfront⟩
    simp only [← fault_eq_none h] at hbefore hfront
    have hb := List.findSome?_eq_some_iff.2 ⟨_, _, _, hinstructions, (h _ _ e).2 hwrong, hfront⟩
    refine List.findSome?_eq_some_iff.2 ⟨_, _, _, hblocks, hb, ?_⟩
    simpa only [List.findSome?_eq_none_iff] using hbefore

/-- If something is wrong at all, there is a first fault. -/
theorem exists_firstFault (hany : AnyFault wrong blocks) :
    ∃ e, FirstFault wrong blocks e ∧
      (blocks.findSome? fun b => b.instructions.findSome? (fault b)) = some e := by
  have hsome := mt (findSome?_fault_eq_none h).1 (not_not_intro hany)
  obtain ⟨e, he⟩ := Option.ne_none_iff_exists'.1 hsome
  exact ⟨e, (findSome?_fault_eq_some h).1 he, he⟩

end Order

/-! ## Instructions that were read -/

theorem DerivesInstruction.wellFormed {ts : List Token} {i : Instruction}
    (h : DerivesInstruction ts i) : i.WellFormed := by
  cases h with
  | plain hm =>
    obtain rfl | ⟨action, rfl⟩ := hm
    · exact .plain (.inl rfl)
    · exact .plain (.inr ⟨action, rfl⟩)
  | number hm _ =>
    obtain rfl | rfl := hm
    · exact .number (.inl rfl)
    · exact .number (.inr rfl)
  | name hm =>
    obtain rfl | ⟨condition, rfl⟩ | rfl := hm
    · exact .name (.inl rfl)
    · exact .name (.inr ⟨condition, rfl⟩)
    · exact .mark

open CodeBlock

mutual

theorem DerivesBlock.wellFormed {ts : List Token} {b : CodeBlock} (h : DerivesBlock ts b) :
    ∀ c ∈ b.flatten, ∀ i ∈ c.instructions, i.WellFormed := by
  match h with
  | .block hitems =>
    rw [flatten, List.forall_mem_cons]
    exact hitems.wellFormed

theorem DerivesItems.wellFormed {ts : List Token} {is : List Instruction} {bs : List CodeBlock}
    (h : DerivesItems ts is bs) :
    (∀ i ∈ is, i.WellFormed) ∧ ∀ c ∈ flattenAll bs, ∀ i ∈ c.instructions, i.WellFormed := by
  match h with
  | .nil => simp [flattenAll]
  | .instruction hi hrest =>
    rw [List.forall_mem_cons]
    exact ⟨⟨hi.wellFormed, hrest.wellFormed.1⟩, hrest.wellFormed.2⟩
  | .block hb hrest =>
    rw [flattenAll, List.forall_mem_append]
    exact ⟨hrest.wellFormed.1, hb.wellFormed, hrest.wellFormed.2⟩

end

theorem DerivesForest.wellFormed {ts : List Token} {bs : List CodeBlock}
    (h : DerivesForest ts bs) : ∀ c ∈ flattenAll bs, ∀ i ∈ c.instructions, i.WellFormed := by
  induction h with
  | nil => simp [flattenAll]
  | cons hb _ ih =>
    rw [flattenAll, List.forall_mem_append]
    exact ⟨hb.wellFormed, ih⟩

/-- An end of the input is accepted between blocks only, where it changes nothing. -/
theorem Reading.feed_eof {r r' : Reading} {t : Token} (ht : t.kind = .eof)
    (h : r.feed t = .ok r') : r' = r := by
  obtain ⟨kind, position⟩ := t
  obtain rfl : kind = .eof := ht
  cases r with
  | between finished => cases h; rfl
  | labelled _ _ _ | inside _ _ | closing _ _ => cases h
  | operand m _ b _ =>
    simp only [feed, operandOf] at h
    cases hoperand : m.operand <;> rw [hoperand] at h <;> cases h

theorem Reading.run_without_eof {r : Reading} {ts : List Token} {forest : List CodeBlock}
    (h : (r.run ts).1 = .ok forest) :
    (r.run (ts.filter (·.kind != .eof))).1 = .ok forest := by
  induction ts generalizing r with
  | nil => exact h
  | cons t ts ih =>
    rw [run] at h
    cases hfeed : r.feed t with
    | error e => rw [hfeed] at h; cases h
    | ok r' =>
      rw [hfeed] at h
      by_cases ht : t.kind = .eof
      · rw [List.filter_cons_of_neg (by simp [ht])]
        rw [feed_eof ht hfeed] at h
        exact ih h
      · rw [List.filter_cons_of_pos (by simp [ht]), run, hfeed]
        exact ih h

theorem wellFormed_of_readFlat {r : Reader} {flat : List FlatBlock}
    (h : r.readFlat.1 = .ok flat) : ∀ b ∈ flat, ∀ i ∈ b.instructions, i.WellFormed := by
  obtain ⟨forest, htree, rfl⟩ := flattenAll_of_readFlat h
  -- The grammar has no end of the input inside a program, and a reader may still hold some.
  have hderives := (run_start_eq_ok (by simp)).1 (Reading.run_without_eof htree)
  exact hderives.wellFormed

theorem not_anyFault_malformed {blocks : List FlatBlock} :
    ¬ AnyFault Malformed blocks ↔ ∀ b ∈ blocks, ∀ i ∈ b.instructions, i.WellFormed := by
  simp [AnyFault, Malformed]

/-! ## The outcome of assembling -/

section Outcome

variable {blocks : List FlatBlock} {entry : String}

theorem assembleBlocks_of_fault {e : LayoutError} (h : blocksFault? blocks entry = some e) :
    assembleBlocks blocks entry = .error e :=
  fault?_eq_some.1 ((fault?_assembleBlocks blocks entry).trans h)

theorem assembleBlocks_of_malformed (hany : AnyFault Malformed blocks) :
    ∃ e, FirstFault Malformed blocks e ∧ assembleBlocks blocks entry = .error e := by
  obtain ⟨e, hfirst, hform⟩ := exists_firstFault FlatBlock.formFault?_eq_some hany
  refine ⟨e, hfirst, assembleBlocks_of_fault ?_⟩
  rw [blocksFault?, hform]
  rfl

/-- With all instructions well-formed, the entry block is looked for before any name. -/
theorem blocksFault?_of_wellFormed (hforms : ¬ AnyFault Malformed blocks) :
    blocksFault? blocks entry =
      (if blocks.any (·.label == entry) then none else some (.noEntry entry)).or
        (blocks.findSome? fun b => b.instructions.findSome? (b.nameFault? blocks)) := by
  rw [blocksFault?, (findSome?_fault_eq_none FlatBlock.formFault?_eq_some).2 hforms,
    Option.none_or]

theorem assembleBlocks_of_no_entry (hforms : ¬ AnyFault Malformed blocks)
    (hentry : ∀ b ∈ blocks, b.label ≠ entry) :
    assembleBlocks blocks entry = .error (.noEntry entry) := by
  apply assembleBlocks_of_fault
  rw [blocksFault?_of_wellFormed hforms, if_neg (by simpa using hentry)]
  rfl

theorem blocksFault?_of_entry (hforms : ¬ AnyFault Malformed blocks)
    (hentry : ∃ b ∈ blocks, b.label = entry) :
    blocksFault? blocks entry =
      blocks.findSome? fun b => b.instructions.findSome? (b.nameFault? blocks) := by
  rw [blocksFault?_of_wellFormed hforms, if_pos (by simpa using hentry), Option.none_or]

theorem assembleBlocks_of_dangling (hforms : ¬ AnyFault Malformed blocks)
    (hentry : ∃ b ∈ blocks, b.label = entry) (hany : AnyFault (Dangling blocks) blocks) :
    ∃ e, FirstFault (Dangling blocks) blocks e ∧ assembleBlocks blocks entry = .error e := by
  obtain ⟨e, hfirst, hname⟩ := exists_firstFault (FlatBlock.nameFault?_eq_some blocks) hany
  refine ⟨e, hfirst, assembleBlocks_of_fault ?_⟩
  rw [blocksFault?_of_entry hforms hentry, hname]

theorem assembleBlocks_of_faultless (hforms : ¬ AnyFault Malformed blocks)
    (hentry : ∃ b ∈ blocks, b.label = entry) (hnames : ¬ AnyFault (Dangling blocks) blocks) :
    ∃ p, assembleBlocks blocks entry = .ok p := by
  rw [← fault?_eq_none, fault?_assembleBlocks, blocksFault?_of_entry hforms hentry]
  exact (findSome?_fault_eq_none (FlatBlock.nameFault?_eq_some blocks)).2 hnames

end Outcome

/-- Assembling reports the first instruction that is not well-formed, whatever else is wrong; then
a missing entry block; then the first name that stands for nothing; and otherwise it succeeds.  In
blocks that were read every instruction is well-formed. -/
theorem assembling_reports_first_fault :
    (∀ (blocks : List FlatBlock) (entry : String),
      (AnyFault Malformed blocks →
        ∃ e, FirstFault Malformed blocks e ∧ assembleBlocks blocks entry = .error e) ∧
      (¬ AnyFault Malformed blocks → (∀ b ∈ blocks, b.label ≠ entry) →
        assembleBlocks blocks entry = .error (.noEntry entry)) ∧
      (¬ AnyFault Malformed blocks → (∃ b ∈ blocks, b.label = entry) →
        AnyFault (Dangling blocks) blocks →
        ∃ e, FirstFault (Dangling blocks) blocks e ∧ assembleBlocks blocks entry = .error e) ∧
      (¬ AnyFault Malformed blocks → (∃ b ∈ blocks, b.label = entry) →
        ¬ AnyFault (Dangling blocks) blocks → ∃ p, assembleBlocks blocks entry = .ok p)) ∧
    ∀ (r : Reader) (flat : List FlatBlock), r.readFlat.1 = .ok flat →
      ¬ AnyFault Malformed flat := by
  constructor
  · intro blocks entry
    exact ⟨assembleBlocks_of_malformed, assembleBlocks_of_no_entry, assembleBlocks_of_dangling,
      assembleBlocks_of_faultless⟩
  · intro r flat hread
    exact not_anyFault_malformed.2 (wellFormed_of_readFlat hread)

/-- Two blocks with a jump in front, mended one fault after the other. -/
theorem assembling_reports_first_fault_mended :
    let blocks (value : Value) (mark : String) : List FlatBlock :=
      [⟨"main", [⟨.op (.jump .always), some (.label "top"), ⟨2, 1⟩⟩,
          ⟨.mark, some (.label mark), ⟨3, 1⟩⟩], 1⟩,
        ⟨"other", [⟨.op .push, some value, ⟨6, 1⟩⟩], 5⟩]
    (∃ e, FirstFault Malformed (blocks (.label "x") "here") e ∧
      assembleBlocks (blocks (.label "x") "here") "absent" = .error e) ∧
    assembleBlocks (blocks (.integer 1) "here") "absent" = .error (.noEntry "absent") ∧
    (∃ e, FirstFault (Dangling (blocks (.integer 1) "here")) (blocks (.integer 1) "here") e ∧
      assembleBlocks (blocks (.integer 1) "here") "main" = .error e) ∧
    ∃ p, assembleBlocks (blocks (.integer 1) "top") "main" = .ok p := by
  intro blocks
  have hmalformed : AnyFault Malformed (blocks (.label "x") "here") :=
    ⟨_, .tail _ (.head _), _, .head _, _, mt Instruction.wellFormed_iff.1 (by decide), rfl⟩
  have hforms (mark : String) : ¬ AnyFault Malformed (blocks (.integer 1) mark) := by
    simp [not_anyFault_malformed, Instruction.wellFormed_iff, blocks, Instruction.form?]
  have hdangling : AnyFault (Dangling (blocks (.integer 1) "here")) (blocks (.integer 1) "here") :=
    ⟨_, .head _, _, .head _, _, .jump (by decide)⟩
  have hnames : ¬ AnyFault (Dangling (blocks (.integer 1) "top")) (blocks (.integer 1) "top") :=
    (findSome?_fault_eq_none (FlatBlock.nameFault?_eq_some _)).1 (by decide)
  have hmain (value : Value) (mark : String) : ∃ b ∈ blocks value mark, b.label = "main" :=
    ⟨_, .head _, rfl⟩
  obtain ⟨malformed, -, -, -⟩ :=
    assembling_reports_first_fault.1 (blocks (.label "x") "here") "absent"
  obtain ⟨-, missing, -, -⟩ :=
    assembling_reports_first_fault.1 (blocks (.integer 1) "here") "absent"
  obtain ⟨-, -, dangling, -⟩ :=
    assembling_reports_first_fault.1 (blocks (.integer 1) "here") "main"
  obtain ⟨-, -, -, faultless⟩ :=
    assembling_reports_first_fault.1 (blocks (.integer 1) "top") "main"
  exact ⟨malformed hmalformed, missing (hforms _) (by decide),
    dangling (hforms _) (hmain _ _) hdangling, faultless (hforms _) (hmain _ _) hnames⟩

end BlockMachine
