import BlockMachine.Proofs.AssemblyCorrectness
import BlockMachine.Proofs.AssemblyFaults
import Mathlib.Data.List.Find

/-! # The order of blocks

Where blocks stand in the source decides their code ranges, their slots, and the order of the
constants.  None of it has a meaning when every label belongs to one block only: a program finds its
blocks by their labels.

* `SameBlocks` — two lists of blocks with the same block behind each label;
* `SameBlocks.sourceRun_eq` — the source machine cannot tell such lists apart;
* `assembled_runs_agree_of_perm` — nor can a run of the assembled programs.
-/

namespace BlockMachine

/-- Every label stands for the same block. -/
def SameBlocks (blocks blocks' : List FlatBlock) : Prop :=
  ∀ label, (blocks.find? fun b => b.label == label) = blocks'.find? fun b => b.label == label

theorem sameBlocks_of_perm {blocks blocks' : List FlatBlock} (hperm : blocks.Perm blocks')
    (hlabels : (blocks.map FlatBlock.label).Nodup) : SameBlocks blocks blocks' := by
  intro label
  refine List.find?_eq_find?_of_perm hperm ?_
  rintro b ⟨hb, hlabel⟩ b' ⟨hb', hlabel'⟩
  rw [beq_iff_eq] at hlabel hlabel'
  exact List.inj_on_of_nodup_map hlabels hb hb' (hlabel.trans hlabel'.symm)

namespace SameBlocks

variable {blocks blocks' : List FlatBlock}

theorem findIdx? (h : SameBlocks blocks blocks') (label : String) :
    Option.Rel (fun i i' => blocks[i]? = blocks'[i']?)
      (blocks.findIdx? fun b => b.label == label) (blocks'.findIdx? fun b => b.label == label) := by
  have hblock := h label
  rw [List.find?_eq_bind_findIdx?_getElem?, List.find?_eq_bind_findIdx?_getElem?] at hblock
  cases hi : blocks.findIdx? fun b => b.label == label with
  | none =>
    cases hi' : blocks'.findIdx? fun b => b.label == label with
    | none => exact .none
    | some i' =>
      obtain ⟨hlt, -⟩ := List.findIdx?_eq_some_iff_getElem.1 hi'
      rw [hi, hi', Option.bind_none, Option.bind_some, List.getElem?_eq_getElem hlt] at hblock
      cases hblock
  | some i =>
    cases hi' : blocks'.findIdx? fun b => b.label == label with
    | none =>
      obtain ⟨hlt, -⟩ := List.findIdx?_eq_some_iff_getElem.1 hi
      rw [hi, hi', Option.bind_none, Option.bind_some, List.getElem?_eq_getElem hlt] at hblock
      cases hblock
    | some i' =>
      rw [hi, hi', Option.bind_some, Option.bind_some] at hblock
      exact .some hblock

end SameBlocks

/-! ## States -/

/-- The same instruction of the same block. -/
structure Place.Same (blocks blocks' : List FlatBlock) (q q' : Place) : Prop where
  block : blocks[q.block]? = blocks'[q'.block]?
  index : q.index = q'.index

structure SourceState.Same (blocks blocks' : List FlatBlock) (s s' : SourceState) : Prop where
  stack : s.stack = s'.stack
  place : Place.Same blocks blocks' s.place s'.place
  callers : List.Forall₂ (Place.Same blocks blocks') s.callers s'.callers

theorem Place.Same.next {blocks blocks' : List FlatBlock} {q q' : Place}
    (h : Place.Same blocks blocks' q q') : Place.Same blocks blocks' q.next q'.next :=
  ⟨h.block, congrArg (· + 1) h.index⟩

namespace SourceState.Same

open Phase

variable {blocks blocks' : List FlatBlock} {s s' : SourceState}

theorem perform (h : Same blocks blocks' s s') (operation : StackM Unit) :
    Related (Same blocks blocks') (s.perform operation) (s'.perform operation) := by
  rw [SourceState.perform, SourceState.perform, h.stack]
  obtain ⟨result, stack⟩ := operation.run s'.stack
  cases result with
  | ok _ => exact .running ⟨rfl, h.place.next, h.callers⟩
  | error f => exact .stopped

theorem leave (h : Same blocks blocks' s s') : Related (Same blocks blocks') s.leave s'.leave := by
  obtain ⟨stack, place, callers⟩ := s
  obtain ⟨stack', place', callers'⟩ := s'
  obtain ⟨rfl, hplace, hcallers⟩ := h
  cases hcallers with
  | nil => exact .stopped
  | cons hcaller hrest => exact .running ⟨rfl, hcaller, hrest⟩

theorem giveBack (h : Same blocks blocks' s s') :
    Related (Same blocks blocks') s.giveBack s'.giveBack := by
  obtain ⟨stack, place, callers⟩ := s
  obtain ⟨stack', place', callers'⟩ := s'
  obtain ⟨rfl, hplace, hcallers⟩ := h
  simp only [SourceState.giveBack]
  obtain ⟨result, left⟩ := Stack.pop.run stack
  cases result with
  | error f => exact .stopped
  | ok v =>
    cases hcallers with
    | nil => exact .stopped
    | cons hcaller hrest =>
      simp only
      obtain ⟨result, back⟩ := (Stack.push v).run left
      cases result with
      | ok _ => exact .running ⟨rfl, hcaller, hrest⟩
      | error f => exact .stopped

theorem jumpWhen (h : Same blocks blocks' s s') (condition : Condition) (index : Nat) :
    Related (Same blocks blocks') (s.jumpWhen condition index) (s'.jumpWhen condition index) := by
  rw [SourceState.jumpWhen, SourceState.jumpWhen, h.stack]
  obtain ⟨result, stack⟩ := condition.test.run s'.stack
  cases result with
  | error f => exact .stopped
  | ok holds =>
    cases holds with
    | true => exact .running ⟨rfl, ⟨h.place.block, rfl⟩, h.callers⟩
    | false => exact .running ⟨rfl, h.place.next, h.callers⟩

theorem call (h : Same blocks blocks' s s') (maxCallDepth : Nat) {block block' : Nat}
    (hblock : blocks[block]? = blocks'[block']?) :
    Related (Same blocks blocks') (s.call maxCallDepth block) (s'.call maxCallDepth block') := by
  rw [SourceState.call, SourceState.call, h.callers.length_eq, h.stack]
  split
  · exact .stopped
  · exact .running ⟨rfl, ⟨hblock, rfl⟩, .cons h.place.next h.callers⟩

theorem execute (hblocks : SameBlocks blocks blocks') (h : Same blocks blocks' s s')
    (maxCallDepth : Nat) (b : FlatBlock) (i : Instruction) :
    Option.Rel (Related (Same blocks blocks')) (s.execute blocks maxCallDepth b i)
      (s'.execute blocks' maxCallDepth b i) := by
  -- Both sides execute the same instruction, so they are split together.
  rw [SourceState.execute, SourceState.execute]
  split
  · exact .some (.running ⟨h.stack, h.place.next, h.callers⟩)
  · exact .some h.giveBack
  · exact .some (h.perform _)
  · exact .some (h.perform _)
  · exact .some (h.perform _)
  · next condition name _ _ =>
    cases lastMark? name b.instructions with
    | none => exact .none
    | some index => exact .some (h.jumpWhen condition index)
  · next name _ _ =>
    have hcalled := hblocks.findIdx? name
    generalize (blocks.findIdx? fun b => b.label == name) = found,
      (blocks'.findIdx? fun b => b.label == name) = found' at hcalled ⊢
    cases hcalled with
    | none => exact .none
    | some hblock => exact .some (h.call maxCallDepth hblock)
  · exact .none

end SourceState.Same

/-! ## Runs -/

namespace SameBlocks

variable {blocks blocks' : List FlatBlock}

theorem lockstep (h : SameBlocks blocks blocks') (maxCallDepth : Nat) :
    Phase.Lockstep (sourceStep blocks maxCallDepth) (sourceStep blocks' maxCallDepth)
      (SourceState.Same blocks blocks') := by
  intro s s' hs
  rw [sourceStep, sourceStep, hs.place.block, hs.place.index]
  cases blocks'[s'.place.block]? with
  | none => exact .none
  | some b =>
    simp only
    cases b.instructions[s'.place.index]? with
    | none => exact .some hs.leave
    | some i => exact hs.execute h maxCallDepth b i

theorem sourceExecute_eq (h : SameBlocks blocks blocks') {block block' : Nat}
    (hblock : blocks[block]? = blocks'[block']?) (maxCallDepth : Nat) (stack : Stack) (fuel : Nat) :
    sourceExecute blocks maxCallDepth stack block fuel =
      sourceExecute blocks' maxCallDepth stack block' fuel := by
  simp only [sourceExecute, sourceStart]
  by_cases hzero : maxCallDepth = 0
  · simp only [if_pos hzero]
  · simp only [if_neg hzero]
    have hstart : SourceState.Same blocks blocks'
        ⟨stack, ⟨block, 0⟩, []⟩ ⟨stack, ⟨block', 0⟩, []⟩ := ⟨rfl, ⟨hblock, rfl⟩, .nil⟩
    exact (h.lockstep maxCallDepth).run_eq hstart fuel

theorem sourceRun_eq (h : SameBlocks blocks blocks') (entry : String) (limits : Limits)
    (fuel : Nat) : sourceRun blocks entry limits fuel = sourceRun blocks' entry limits fuel := by
  have hentry := h.findIdx? entry
  rw [sourceRun, sourceRun]
  generalize (blocks.findIdx? fun b => b.label == entry) = found,
    (blocks'.findIdx? fun b => b.label == entry) = found' at hentry ⊢
  cases hentry with
  | none => rfl
  | some hblock => exact h.sourceExecute_eq hblock _ _ fuel

end SameBlocks

theorem Assembled.run_eq_execute {blocks : List FlatBlock} {entry : Nat} {layout : Layout}
    {pool : List Int32} {p : Program} (h : Assembled blocks entry layout pool p) (limits : Limits)
    (fuel : Nat) :
    p.run limits fuel =
      (Machine.mk p limits.maxCallDepth (.empty limits.stackCapacity)).execute fuel
        (blockRange blocks entry) := by
  simp only [Program.run, Machine.run, Machine.new, h.entry_block]
  rfl

theorem run_stopped_iff_sourceRun_stopped {blocks : List FlatBlock} {entry : String} {p : Program}
    (hassembles : assembleBlocks blocks entry = .ok p) (limits : Limits) {result : Result}
    {stack : Stack} :
    (∃ fuel, p.run limits fuel = .stopped result stack) ↔
      ∃ fuel, sourceRun blocks entry limits fuel = .stopped result stack := by
  obtain ⟨block, layout, pool, hentry, h⟩ := assembled_of_assembleBlocks hassembles
  simp only [h.run_eq_execute, sourceRun, hentry]
  exact h.execute_stopped_iff h.places.entry_lt _ _

/-! ## Assembling -/

theorem blocksFault?_eq_none_of_perm {blocks blocks' : List FlatBlock}
    (hperm : blocks.Perm blocks') (entry : String) :
    blocksFault? blocks entry = none ↔ blocksFault? blocks' entry = none := by
  have hnames (b : FlatBlock) (i : Instruction) :
      b.nameFault? blocks i = b.nameFault? blocks' i := by
    simp only [FlatBlock.nameFault?, hperm.any_eq]
  simp only [blocksFault?_eq_none, hnames, hperm.mem_iff]

theorem assembles_iff_of_perm {blocks blocks' : List FlatBlock} (hperm : blocks.Perm blocks')
    (entry : String) :
    (∃ p, assembleBlocks blocks entry = .ok p) ↔ ∃ p, assembleBlocks blocks' entry = .ok p := by
  rw [← fault?_eq_none, ← fault?_eq_none, fault?_assembleBlocks, fault?_assembleBlocks]
  exact blocksFault?_eq_none_of_perm hperm entry

/-- When no two blocks have the same label, the order of the blocks decides neither whether they can
be assembled nor how a run of the program ends. -/
theorem assembled_runs_agree_of_perm (blocks blocks' : List FlatBlock)
    (hperm : blocks.Perm blocks') (hlabels : (blocks.map FlatBlock.label).Nodup) (entry : String) :
    ((∃ p, assembleBlocks blocks entry = .ok p) ↔ ∃ p, assembleBlocks blocks' entry = .ok p) ∧
    ∀ p p', assembleBlocks blocks entry = .ok p → assembleBlocks blocks' entry = .ok p' →
      ∀ limits result stack,
        (∃ fuel, p.run limits fuel = .stopped result stack) ↔
          ∃ fuel, p'.run limits fuel = .stopped result stack := by
  refine ⟨assembles_iff_of_perm hperm entry, ?_⟩
  intro p p' hp hp' limits result stack
  have hsame := sameBlocks_of_perm hperm hlabels
  rw [run_stopped_iff_sourceRun_stopped hp, run_stopped_iff_sourceRun_stopped hp']
  simp only [hsame.sourceRun_eq]

/-- Moved behind the others, a block gives all words, constants and slots new places. -/
theorem assembled_runs_agree_of_perm_moved_block :
    let code (m : Mnemonic) (operand : Option Value) : Instruction := ⟨m, operand, .start⟩
    let idle : FlatBlock := ⟨"idle", [code (.op .push) (some (.integer 7))], 1⟩
    let down : FlatBlock := ⟨"down", [code (.op (.act .dec)) none], 2⟩
    let main : FlatBlock :=
      ⟨"main", [code (.op .push) (some (.integer 2)), code .mark (some (.label "again")),
        code (.op .call) (some (.label "down")),
        code (.op (.jump .nonzero)) (some (.label "again")), code (.op .ret) none], 3⟩
    let p : Program :=
      ⟨#[2, 0, 10, 2, 1, 1, 2, 7, 5, 0], #[.integer 7, .integer 2], #[⟨3, 10⟩, ⟨0, 2⟩, ⟨2, 3⟩]⟩
    let p' : Program :=
      ⟨#[10, 2, 0, 1, 1, 7, 3, 0, 2, 1], #[.integer 2, .integer 7], #[⟨1, 8⟩, ⟨0, 1⟩, ⟨8, 10⟩]⟩
    [idle, down, main].Perm [down, main, idle] ∧
      ([idle, down, main].map FlatBlock.label).Nodup ∧
      assembleBlocks [idle, down, main] "main" = .ok p ∧
      assembleBlocks [down, main, idle] "main" = .ok p' ∧
      (∃ fuel, p.run ⟨1, 2⟩ fuel = .stopped (.ok (some (.integer 0))) (.empty 1)) ∧
      ∃ fuel, p'.run ⟨1, 2⟩ fuel = .stopped (.ok (some (.integer 0))) (.empty 1) := by
  intro code idle down main p p'
  have hperm : [idle, down, main].Perm [down, main, idle] := by decide
  have hlabels : ([idle, down, main].map FlatBlock.label).Nodup := by decide
  have hp : assembleBlocks [idle, down, main] "main" = .ok p := by decide +kernel
  have hp' : assembleBlocks [down, main, idle] "main" = .ok p' := by decide +kernel
  have hruns : ∃ fuel, p.run ⟨1, 2⟩ fuel = .stopped (.ok (some (.integer 0))) (.empty 1) :=
    ⟨10, rfl⟩
  have hagree := assembled_runs_agree_of_perm _ _ hperm hlabels "main"
  exact ⟨hperm, hlabels, hp, hp', hruns, (hagree.2 p p' hp hp' _ _ _).1 hruns⟩

end BlockMachine
