import BlockMachine.Program.Decoding
import BlockMachine.Proofs.EmittedCode

/-! # Decoding emitted code

The decoder walks over code words and knows nothing of the source; still it finds the instructions
that were written, and nothing else.

* `coded` — the instructions that give code: all but the marks;
* `Emits.itemAt?_eq` — the words of one instruction are read as one item;
* `Assembled.items_eq` — the items of a block are its coded instructions in order, each at the
  offset where the words of the ones before end;
* `Assembled.boundary` — in front of every instruction there is an item, or the end of the block.
-/

namespace BlockMachine

def coded (is : List Instruction) : List Instruction :=
  is.filter fun i => i.mnemonic != .mark

theorem coded_append (is is' : List Instruction) : coded (is ++ is') = coded is ++ coded is' :=
  List.filter_append _ _

theorem coded_cons_mark {i : Instruction} (h : i.mnemonic = .mark) (is : List Instruction) :
    coded (i :: is) = coded is := by
  simp [coded, h]

theorem coded_cons_op {i : Instruction} {op : Opcode} (h : i.mnemonic = .op op)
    (is : List Instruction) : coded (i :: is) = i :: coded is := by
  simp [coded, h]

theorem wordCount_coded (is : List Instruction) : wordCount (coded is) = wordCount is := by
  induction is with
  | nil => rfl
  | cons i is ih =>
    by_cases h : i.mnemonic = .mark
    · rw [coded_cons_mark h, ih, wordCount_cons]
      simp [Instruction.width, h, Mnemonic.opcode?]
    · simp only [coded, List.filter_cons, bne_iff_ne, ne_eq, h, not_false_eq_true, if_true] at ih ⊢
      rw [wordCount_cons, wordCount_cons, ih]

/-! ## One instruction -/

namespace Emits

variable {layout : Layout} {pool : List Int32} {index : Nat} {i : Instruction} {words : List Nat}

/-- An instruction is a mark without words, or an opcode word with at most one word behind it. -/
theorem mark_or_op (h : Emits layout pool index i words) :
    i.mnemonic = .mark ∧ words = [] ∨
      ∃ op, i.mnemonic = .op op ∧
        (op.operandCount = 0 ∧ words = [op.word] ∨
          ∃ operand, op.operandCount = 1 ∧ words = [op.word, operand]) := by
  cases h with
  | mark => exact .inl ⟨rfl, rfl⟩
  | plain hop => exact .inr ⟨_, rfl, .inl ⟨by simp [Opcode.operandCount, hop], rfl⟩⟩
  | literal hop _ => exact .inr ⟨_, rfl, .inr ⟨_, by simp [Opcode.operandCount, hop], rfl⟩⟩
  | jump _ => exact .inr ⟨_, rfl, .inr ⟨_, rfl, rfl⟩⟩
  | call _ => exact .inr ⟨_, rfl, .inr ⟨_, rfl, rfl⟩⟩

/-- The words of an instruction are read as one item, which is made of these words. -/
theorem itemAt?_eq (h : Emits layout pool index i words) {op : Opcode} (hop : i.mnemonic = .op op)
    {code : Array Nat} {pos stop : Nat} (hcode : ∀ j < words.length, code[pos + j]? = words[j]?)
    (hstop : pos + words.length ≤ stop) :
    itemAt? code pos stop = some (.instruction pos op words[1]?) ∧
      (Item.instruction pos op words[1]?).words = words := by
  obtain ⟨hmark, _⟩ | ⟨op', hop', hwords⟩ := h.mark_or_op
  · rw [hmark] at hop
    cases hop
  · rw [hop'] at hop
    cases hop
    obtain ⟨hcount, rfl⟩ | ⟨operand, hcount, rfl⟩ := hwords
    · have hword : code[pos]? = some op.word := hcode 0 (by simp)
      simp [itemAt?, hword, hcount, Item.words]
    · have hword : code[pos]? = some op.word := hcode 0 (by simp)
      have hoperand : code[pos + 1]? = some operand := hcode 1 (by simp)
      have hinside : pos + 1 < stop := hstop
      simp [itemAt?, hword, hcount, hoperand, hinside, Item.words]

end Emits

/-! ## The instructions of a block -/

section

variable {layout : Layout} {pool : List Int32} {index : Nat}

def DecodesTo (layout : Layout) (pool : List Int32) (index offset : Nat) (i : Instruction)
    (item : Item) : Prop :=
  ∃ op words, i.mnemonic = .op op ∧ Emits layout pool index i words ∧
    item = .instruction offset op words[1]?

theorem itemsFrom_eq {is : List Instruction} {words : List (List Nat)}
    (h : List.Forall₂ (Emits layout pool index) is words) {code : Array Nat}
    {before after : List Nat} (hcode : code.toList = before ++ words.flatten ++ after) {stop : Nat}
    (hstop : stop = before.length + wordCount is) :
    (itemsFrom code before.length stop).length = (coded is).length ∧
      ∀ k i, (coded is)[k]? = some i → ∃ item, (itemsFrom code before.length stop)[k]? = some item ∧
        DecodesTo layout pool index (before.length + wordCount ((coded is).take k)) i item := by
  -- The words of the instructions that were read are moved over to `before`.
  induction h generalizing before with
  | nil =>
    have hend : ¬ before.length < stop := by rw [hstop]; simp
    rw [itemsFrom, if_neg hend]
    exact ⟨rfl, nofun⟩
  | @cons i own is words hi hrest ih =>
    have hnext : code.toList = (before ++ own) ++ words.flatten ++ after := by
      rw [hcode, List.flatten_cons, List.append_assoc before own]
    have hstop' : stop = (before ++ own).length + wordCount is := by
      rw [hstop, wordCount_cons, List.length_append, hi.length_eq, Nat.add_assoc]
    have hrest := ih hnext hstop'
    obtain ⟨hmark, rfl⟩ | ⟨op, hop, _⟩ := hi.mark_or_op
    · -- A mark has no words, so the walk has not moved.
      rw [List.append_nil] at hrest
      rw [coded_cons_mark hmark]
      exact hrest
    · have hown : ∀ j < own.length, code[before.length + j]? = own[j]? := by
        intro j hj
        rw [← Array.getElem?_toList, hnext, List.append_assoc, getElem?_middle _ _ _ hj]
      have hlength : own.length = i.width := hi.length_eq
      have hwidth : 0 < i.width := by
        simp only [Instruction.width, hop, Mnemonic.opcode?, Opcode.width]
        omega
      rw [wordCount_cons] at hstop
      have hstart : before.length < stop := by omega
      have hfits : before.length + own.length ≤ stop := by omega
      obtain ⟨hitem, hwords⟩ := hi.itemAt?_eq hop hown hfits
      rw [itemsFrom, if_pos hstart, hitem]
      simp only [hwords, coded_cons_op hop]
      rw [List.length_append] at hrest
      refine ⟨by rw [List.length_cons, List.length_cons, hrest.1], ?_⟩
      intro k i' hi'
      cases k with
      | zero =>
        cases hi'
        exact ⟨_, rfl, op, own, hop, hi, rfl⟩
      | succ k =>
        obtain ⟨item, hitem, hdecodes⟩ := hrest.2 k i' hi'
        refine ⟨item, hitem, ?_⟩
        rw [List.take_succ_cons, wordCount_cons, ← hlength, ← Nat.add_assoc]
        exact hdecodes

end

namespace Assembled

variable {blocks : List FlatBlock} {entry : Nat} {layout : Layout} {pool : List Int32}
  {p : Program}

theorem items_eq (h : Assembled blocks entry layout pool p) {i : Nat} {b : FlatBlock}
    (hb : blocks[i]? = some b) :
    (p.items (blockRange blocks i)).length = (coded b.instructions).length ∧
      ∀ k ins, (coded b.instructions)[k]? = some ins →
        ∃ item, (p.items (blockRange blocks i))[k]? = some item ∧
          DecodesTo layout pool i
            (blockStart blocks i + wordCount ((coded b.instructions).take k)) ins item := by
  obtain ⟨before, own, after, hcode, hlength, hown⟩ := h.block_code hb
  have hi : i < blocks.length := (List.getElem?_eq_some_iff.1 hb).1
  have hstop := (h.blockRange_ordered hi).2
  have hend : (blockRange blocks i).stop = before.length + wordCount b.instructions := by
    rw [hlength]
    exact blockStart_succ hb
  have hitems := itemsFrom_eq hown hcode hend
  rw [Program.items, Nat.min_eq_left hstop, ← hlength]
  rw [hlength] at hitems ⊢
  exact hitems

theorem boundary (h : Assembled blocks entry layout pool p) {i : Nat} {b : FlatBlock}
    (hb : blocks[i]? = some b) {front back : List Instruction}
    (hsplit : b.instructions = front ++ back) :
    blockStart blocks i + wordCount front = (blockRange blocks i).stop ∨
      ∃ op operand, .instruction (blockStart blocks i + wordCount front) op operand ∈
        p.items (blockRange blocks i) := by
  have hitems := (h.items_eq hb).2
  rw [hsplit, coded_append] at hitems
  cases hback : coded back with
  -- Only marks are left, so the words of `front` reach up to the end.
  | nil =>
    have hnone : wordCount back = 0 := by rw [← wordCount_coded, hback]; rfl
    left
    simp only [blockRange, blockStart_succ hb, hsplit, wordCount_append, hnone, Nat.add_zero]
  | cons ins rest =>
    right
    rw [hback] at hitems
    obtain ⟨item, hitem, op, words, _, _, rfl⟩ := hitems (coded front).length ins (by simp)
    rw [List.take_left, wordCount_coded] at hitem
    exact ⟨op, words[1]?, List.mem_of_getElem? hitem⟩

end Assembled

/-! ## The decoded program -/

/-- `item` stands at `offset` for an instruction of the block `b`, whose code range is `r`: with
the opcode of its mnemonic, and with what its operand was resolved to. -/
inductive Represents (blocks : List FlatBlock) (layout : Layout) (p : Program) (b : FlatBlock)
    (r : Range) (offset : Nat) : Instruction → Item → Prop
  | plain {op : Opcode} {position : Position} (hop : op.operand? = none) :
      Represents blocks layout p b r offset ⟨.op op, none, position⟩ (.instruction offset op none)
  | literal {op : Opcode} {n : Int32} {position : Position} {place : Nat}
      (hop : op = .push ∨ op = .popN) (hplace : p.constants[place]? = some (.integer n)) :
      Represents blocks layout p b r offset ⟨.op op, some (.integer n), position⟩
        (.instruction offset op (some place))
  | call {name : String} {position : Position} {j slot : Nat}
      (hfirst : (blocks.findIdx? fun b => b.label == name) = some j)
      (hslot : layout.slots[j]? = some slot) :
      Represents blocks layout p b r offset ⟨.op .call, some (.label name), position⟩
        (.instruction offset .call (some slot))
  | jump {condition : Condition} {name : String} {position : Position}
      {target : Nat} {before after : List Instruction} {mark : Instruction}
      (hsplit : b.instructions = before ++ mark :: after) (hmark : mark.marks name)
      (hlast : ∀ i ∈ after, i.marks name = false) (htarget : target = r.start + wordCount before)
      (hinside : r.start ≤ target ∧ target ≤ r.stop)
      (hboundary : target = r.stop ∨ ∃ op operand, .instruction target op operand ∈ p.items r) :
      Represents blocks layout p b r offset ⟨.op (.jump condition), some (.label name), position⟩
        (.instruction offset (.jump condition) (some target))

namespace Assembled

variable {blocks : List FlatBlock} {entry : Nat} {layout : Layout} {pool : List Int32}
  {p : Program}

theorem mark_target (h : Assembled blocks entry layout pool p) {i : Nat} {b : FlatBlock}
    (hb : blocks[i]? = some b) {name : String} {target : Nat}
    (htarget : layout.mark? i name = some target) :
    ∃ before mark after, b.instructions = before ++ mark :: after ∧ mark.marks name ∧
      (∀ ins ∈ after, ins.marks name = false) ∧
      target = blockStart blocks i + wordCount before := by
  rw [h.places.marks i b name hb] at htarget
  obtain ⟨k, hk, rfl⟩ := Option.map_eq_some_iff.1 htarget
  obtain ⟨before, mark, after, hsplit, rfl, hmark, hafter⟩ := lastMark?_eq_some hk
  refine ⟨before, mark, after, hsplit, hmark, hafter, ?_⟩
  rw [hsplit, wordCount_take_mark hmark]

theorem represents (h : Assembled blocks entry layout pool p) {i : Nat} {b : FlatBlock}
    (hb : blocks[i]? = some b) {offset : Nat} {ins : Instruction} {item : Item}
    (hdecodes : DecodesTo layout pool i offset ins item) :
    Represents blocks layout p b (blockRange blocks i) offset ins item := by
  obtain ⟨op, words, hop, hemits, rfl⟩ := hdecodes
  cases hemits with
  | mark => cases hop
  | plain hnone => cases hop; exact .plain hnone
  | @literal _ n position place hconstant hplace =>
    cases hop
    have hkind : op = .push ∨ op = .popN := by
      cases op with
      | push => exact .inl rfl
      | popN => exact .inr rfl
      | ret | call | jump _ | act _ => cases hconstant
    exact .literal hkind (h.constant_at hplace)
  | @jump condition name position target htarget =>
    cases hop
    obtain ⟨before, mark, after, hsplit, hmark, hafter, rfl⟩ := h.mark_target hb htarget
    refine .jump hsplit hmark hafter rfl ⟨Nat.le_add_right _ _, ?_⟩ (h.boundary hb hsplit)
    simp only [blockRange, blockStart_succ hb, hsplit, wordCount_append]
    omega
  | @call name position slot hslot =>
    cases hop
    rw [h.places.labels] at hslot
    obtain ⟨j, hj, rfl⟩ := Option.map_eq_some_iff.1 hslot
    have hlt : j < blocks.length := (List.findIdx?_eq_some_iff_getElem.1 hj).1
    refine .call hj ?_
    simp [h.places.slots, hlt]

end Assembled

/-- Decoding the range of a block gives one item for each of its instructions but the marks, in
order and without any other item, each at the offset where the words of the ones before end. -/
theorem decoded_blocks_represent_source (blocks : List FlatBlock) (entry : String)
    (layout : Layout) (p : Program) (hlayout : Layout.ofBlocks blocks entry = .ok layout)
    (hemit : emit blocks layout = .ok p) :
    p.code.size = layout.codeLength ∧
    ∀ (i : Nat) (b : FlatBlock), blocks[i]? = some b → ∃ r, layout.ranges[i]? = some r ∧
      (p.items r).length = (coded b.instructions).length ∧
      ∀ k ins, (coded b.instructions)[k]? = some ins →
        ∃ item, (p.items r)[k]? = some item ∧
          Represents blocks layout p b r
            (r.start + wordCount ((coded b.instructions).take k)) ins item := by
  obtain ⟨index, pool, _, h⟩ := assembled_of_emit hlayout hemit
  refine ⟨h.code_size.trans h.places.codeLength.symm, ?_⟩
  intro i b hb
  have hi : i < blocks.length := (List.getElem?_eq_some_iff.1 hb).1
  obtain ⟨hlength, hitems⟩ := h.items_eq hb
  refine ⟨blockRange blocks i, by simp [h.places.ranges, hi], hlength, ?_⟩
  intro k ins hins
  obtain ⟨item, hitem, hdecodes⟩ := hitems k ins hins
  exact ⟨item, hitem, h.represents hb hdecodes⟩

/-- A jump to a name that is marked twice, the second time at the end of the block. -/
theorem decoded_blocks_represent_source_repeated_mark :
    let code (m : Mnemonic) (operand : Option Value) : Instruction := ⟨m, operand, .start⟩
    let caller : FlatBlock :=
      ⟨"f", [code .mark none, code (.op .call) (some (.label "main")),
        code (.op (.jump .zero)) (some (.label "")), code .mark (some (.integer 3))], 1⟩
    let blocks := [caller, ⟨"main", [code (.op .push) (some (.integer 7))], 2⟩, ⟨"main", [], 3⟩]
    let layout : Layout :=
      ⟨[⟨0, 4⟩, ⟨4, 6⟩, ⟨6, 6⟩], [⟨4, 6⟩, ⟨0, 4⟩, ⟨6, 6⟩], [1, 0, 2], ⟨[("f", 1), ("main", 0)]⟩,
        ⟨[((0, ""), 4)]⟩, 6⟩
    let p : Program :=
      ⟨#[1, 0, 6, 4, 2, 0], #[.integer 7], #[⟨4, 6⟩, ⟨0, 4⟩, ⟨6, 6⟩]⟩
    Layout.ofBlocks blocks "main" = .ok layout ∧ emit blocks layout = .ok p ∧
      (p.items ⟨0, 4⟩).length = 2 ∧
      ∃ item, (p.items ⟨0, 4⟩)[1]? = some item ∧
        Represents blocks layout p caller ⟨0, 4⟩ 2 (code (.op (.jump .zero)) (some (.label "")))
          item := by
  intro code caller blocks layout p
  have hlayout : Layout.ofBlocks blocks "main" = .ok layout := by decide +kernel
  have hemit : emit blocks layout = .ok p := by decide +kernel
  obtain ⟨_, hblocks⟩ := decoded_blocks_represent_source blocks "main" layout p hlayout hemit
  obtain ⟨r, hr, hlength, hitems⟩ := hblocks 0 caller rfl
  cases hr
  exact ⟨hlayout, hemit, hlength, hitems 1 _ rfl⟩

end BlockMachine
