import BlockMachine.Proofs.EmittedCode

/-! # What assembling refuses

Assembling goes over the instructions twice: for their forms, before anything has a place, and once
more to write them.  Either walk ends at the first instruction that it cannot do, and between them
the entry block is looked for.  So there is a fault to report exactly when something is wrong with
an instruction or the entry block is missing, which is said here of the source blocks alone.

* `FlatBlock.formFault?`, `FlatBlock.nameFault?` — what is wrong with one instruction of a block;
* `blocksFault?` — the fault that is found first;
* `fault?_assembleBlocks` — assembling reports that fault, and succeeds when there is none.
-/

namespace BlockMachine

/-! ## Faults of instructions -/

namespace FlatBlock

/-- An instruction that has no form. -/
def formFault? (b : FlatBlock) (i : Instruction) : Option LayoutError :=
  match i.form? with
  | some _ => none
  | none => some (.invalidInstruction b.label i.text i.position.line)

/-- An instruction with a name that stands for nothing: jumps need a mark in their own block, and
calls a block. -/
def nameFault? (blocks : List FlatBlock) (b : FlatBlock) (i : Instruction) : Option LayoutError :=
  match i.form? with
  | some (.jump _ name) =>
    if b.instructions.any (·.marks name) then none
    else some (.undefinedMark b.label name i.position.line)
  | some (.call name) =>
    if blocks.any (·.label == name) then none else some (.undefinedBlock name i.position.line)
  | _ => none

theorem fault?_form (b : FlatBlock) (i : Instruction) : fault? (b.form i) = b.formFault? i := by
  rw [form, formFault?]
  cases i.form? <;> rfl

theorem fault?_forms (b : FlatBlock) :
    fault? b.forms = b.instructions.findSome? b.formFault? := by
  rw [forms, fault?_mapM]
  simp only [fault?_form]

end FlatBlock

/-- The first fault of blocks: forms come before the entry block, and names come last. -/
def blocksFault? (blocks : List FlatBlock) (entry : String) : Option LayoutError :=
  ((blocks.findSome? fun b => b.instructions.findSome? b.formFault?).or
    (if blocks.any (·.label == entry) then none else some (.noEntry entry))).or
    (blocks.findSome? fun b => b.instructions.findSome? (b.nameFault? blocks))

theorem isSome_lastMark? (name : String) (is : List Instruction) :
    (lastMark? name is).isSome = is.any (·.marks name) := by
  cases hmark : lastMark? name is with
  | none =>
    have hnone : is.any (·.marks name) = false := by
      simpa using lastMark?_eq_none hmark
    rw [hnone]
    rfl
  | some k =>
    obtain ⟨before, mark, after, rfl, -, hmarks, -⟩ := lastMark?_eq_some hmark
    simp [hmarks]

theorem isSome_findIdx?_label (blocks : List FlatBlock) (label : String) :
    (blocks.findIdx? fun b => b.label == label).isSome = blocks.any (·.label == label) :=
  List.findIdx?_isSome

/-! ## Faults of the two walks -/

theorem Layout.fault?_ofBlocks (blocks : List FlatBlock) (entry : String) :
    fault? (ofBlocks blocks entry) =
      (blocks.findSome? fun b => b.instructions.findSome? b.formFault?).or
        (if blocks.any (·.label == entry) then none else some (.noEntry entry)) := by
  have hforms := fault?_mapM FlatBlock.forms blocks
  simp only [FlatBlock.fault?_forms] at hforms
  rw [← hforms, ofBlocks, ← isSome_findIdx?_label]
  cases blocks.mapM FlatBlock.forms with
  | error e => rfl
  | ok forms => cases blocks.findIdx? fun b => b.label == entry <;> rfl

namespace Emission

variable {layout : Layout} {blocks : List FlatBlock} {entry index : Nat} {b : FlatBlock}

/-- With the layout of the blocks, an instruction that has a form can be written if its name stands
for something. -/
theorem fault?_add (hplaces : layout.Places blocks entry) (hb : blocks[index]? = some b)
    {i : Instruction} (hform : b.formFault? i = none) (e : Emission) :
    fault? (add layout b index e i) = b.nameFault? blocks i := by
  obtain ⟨form, hform⟩ := fault?_eq_none.1 ((b.fault?_form i).trans hform)
  rw [add, hform, FlatBlock.nameFault?, FlatBlock.form?_of_form hform]
  cases form with
  | mark name => rfl
  | plain op => rfl
  | literal op n => rfl
  | jump condition name =>
    have hmark := congrArg Option.isSome (hplaces.marks index b name hb)
    rw [Option.isSome_map, isSome_lastMark?] at hmark
    simp only [← hmark]
    cases htarget : layout.mark? index name with
    | none => simp only [bind, Except.bind, htarget]; rfl
    | some target => simp only [bind, Except.bind, htarget]; rfl
  | call name =>
    have hslot := congrArg Option.isSome (hplaces.labels name)
    rw [Option.isSome_map, isSome_findIdx?_label] at hslot
    simp only [← hslot]
    cases hslot : layout.slot? name with
    | none => simp only [bind, Except.bind, hslot]; rfl
    | some slot => simp only [bind, Except.bind, hslot]; rfl

theorem fault?_emit (hplaces : layout.Places blocks entry)
    (hforms : ∀ b ∈ blocks, ∀ i ∈ b.instructions, b.formFault? i = none) :
    fault? (emit blocks layout) =
      blocks.findSome? fun b => b.instructions.findSome? (b.nameFault? blocks) := by
  have hwalk : fault? (blocks.zipIdx.foldlM (addBlock layout) .start) =
      blocks.zipIdx.findSome? fun block =>
        block.1.instructions.findSome? (block.1.nameFault? blocks) := by
    refine fault?_foldlM ?_ _
    rintro ⟨b, index⟩ hmem e
    have hb : blocks[index]? = some b := List.mem_zipIdx_iff_getElem?.1 hmem
    refine fault?_foldlM ?_ e
    intro i hi e
    exact fault?_add hplaces hb (hforms b (List.mem_of_getElem? hb) i hi) e
  have hblocks : blocks.zipIdx.map Prod.fst = blocks := List.zipIdx_map_fst 0 blocks
  calc fault? (emit blocks layout)
      = fault? (blocks.zipIdx.foldlM (addBlock layout) .start) := by
        rw [emit]
        cases blocks.zipIdx.foldlM (addBlock layout) .start <;> rfl
    _ = _ := hwalk
    _ = (blocks.zipIdx.map Prod.fst).findSome? fun b =>
          b.instructions.findSome? (b.nameFault? blocks) := by rw [List.findSome?_map]; rfl
    _ = _ := by rw [hblocks]

end Emission

/-! ## The fault of assembling -/

theorem fault?_assembleBlocks (blocks : List FlatBlock) (entry : String) :
    fault? (assembleBlocks blocks entry) = blocksFault? blocks entry := by
  have hlayout := Layout.fault?_ofBlocks blocks entry
  rw [blocksFault?, ← hlayout, assembleBlocks]
  cases hofBlocks : Layout.ofBlocks blocks entry with
  | error e => rfl
  | ok layout =>
    obtain ⟨index, -, hplaces⟩ := Layout.ofBlocks_places hofBlocks
    rw [hofBlocks, fault?, eq_comm, Option.or_eq_none_iff, List.findSome?_eq_none_iff] at hlayout
    refine Emission.fault?_emit hplaces ?_
    intro b hb
    exact List.findSome?_eq_none_iff.1 (hlayout.1 b hb)

/-- There is no fault when every instruction is right and the entry block is there. -/
theorem blocksFault?_eq_none {blocks : List FlatBlock} {entry : String} :
    blocksFault? blocks entry = none ↔ (∃ b ∈ blocks, b.label = entry) ∧
      ∀ b ∈ blocks, ∀ i ∈ b.instructions,
        b.formFault? i = none ∧ b.nameFault? blocks i = none := by
  have hentry : (if blocks.any (·.label == entry) then none
      else some (LayoutError.noEntry entry)) = none ↔ ∃ b ∈ blocks, b.label = entry := by
    simp
  simp only [blocksFault?, Option.or_eq_none_iff, List.findSome?_eq_none_iff, hentry]
  constructor
  · rintro ⟨⟨hforms, hblock⟩, hnames⟩
    exact ⟨hblock, fun b hb i hi => ⟨hforms b hb i hi, hnames b hb i hi⟩⟩
  · rintro ⟨hblock, hright⟩
    exact ⟨⟨fun b hb i hi => (hright b hb i hi).1, hblock⟩, fun b hb i hi => (hright b hb i hi).2⟩

end BlockMachine
