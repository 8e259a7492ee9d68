import BlockMachine.Layout.Emission
import BlockMachine.Proofs.Placement

/-! # The words of emitted code

Emission is one walk over all instructions that writes code and fills the pool of constants.  Its
result is said here instruction by instruction, with the pool as it is in the end:

* `Emits` — the words of one instruction, and `Emission.Adds` — the step that writes them;
* `Emission.Indexed` — constants and index are inverse to each other, which a literal keeps
  (`Indexed.intern`) and so does every step (`Indexed.add`);
* `emit_words` — the code is the words of all instructions, one behind the other, and those of one
  instruction are found by its place (`EmitsBlocks.words_at`);
* `Assembled` — what is known of a program assembled from blocks: each word of each instruction
  by its place (`Assembled.code_at`), the block table and the constants.
-/

namespace BlockMachine

/-- The words that an instruction of the block with source index `index` is written as. -/
inductive Emits (layout : Layout) (pool : List Int32) (index : Nat) :
    Instruction → List Nat → Prop
  | mark {operand : Option Value} {position : Position} :
      Emits layout pool index ⟨.mark, operand, position⟩ []
  | plain {op : Opcode} {position : Position} (hop : op.operand? = none) :
      Emits layout pool index ⟨.op op, none, position⟩ [op.word]
  | literal {op : Opcode} {n : Int32} {position : Position} {place : Nat}
      (hop : op.operand? = some .constant) (hplace : pool[place]? = some n) :
      Emits layout pool index ⟨.op op, some (.integer n), position⟩ [op.word, place]
  | jump {condition : Condition} {name : String} {position : Position} {target : Nat}
      (htarget : layout.mark? index name = some target) :
      Emits layout pool index ⟨.op (.jump condition), some (.label name), position⟩
        [(Opcode.jump condition).word, target]
  | call {name : String} {position : Position} {slot : Nat}
      (hslot : layout.slot? name = some slot) :
      Emits layout pool index ⟨.op .call, some (.label name), position⟩ [Opcode.call.word, slot]

namespace Emits

variable {layout : Layout} {pool : List Int32} {index : Nat} {i : Instruction} {words : List Nat}

theorem length_eq (h : Emits layout pool index i words) : words.length = i.width := by
  cases h with
  | mark => rfl
  | plain hop => simp [Instruction.width, Mnemonic.opcode?, Opcode.width, Opcode.operandCount, hop]
  | literal hop _ =>
    simp [Instruction.width, Mnemonic.opcode?, Opcode.width, Opcode.operandCount, hop]
  | jump _ => rfl
  | call _ => rfl

/-- A literal keeps its place when the pool grows. -/
theorem mono (h : Emits layout pool index i words) {pool' : List Int32} (hpool : pool <+: pool') :
    Emits layout pool' index i words := by
  cases h with
  | mark => exact .mark
  | plain hop => exact .plain hop
  | literal hop hplace =>
    obtain ⟨more, rfl⟩ := hpool
    refine .literal hop ?_
    rw [List.getElem?_append_left (List.getElem?_eq_some_iff.1 hplace).1]
    exact hplace
  | jump htarget => exact .jump htarget
  | call hslot => exact .call hslot

theorem length_flatten {is : List Instruction} {words : List (List Nat)}
    (h : List.Forall₂ (Emits layout pool index) is words) :
    words.flatten.length = wordCount is := by
  induction h with
  | nil => rfl
  | cons hi _ ih => rw [List.flatten_cons, List.length_append, hi.length_eq, ih, wordCount_cons]

end Emits

/-- The words of all blocks from source index `first` on. -/
def EmitsBlocks (layout : Layout) (pool : List Int32) (blocks : List FlatBlock) (first : Nat)
    (words : List (List (List Nat))) : Prop :=
  List.Forall₂ (fun (block : FlatBlock × Nat) words =>
    List.Forall₂ (Emits layout pool block.2) block.1.instructions words) (blocks.zipIdx first) words

/-! ## One step of emission -/

namespace Emission

variable {layout : Layout} {e e' : Emission} {pool : List Int32}

/-- The pool after a use of an integer, which enters it when it is not there. -/
def poolWith (pool : List Int32) (n : Int32) : List Int32 :=
  if n ∈ pool then pool else pool ++ [n]

theorem prefix_poolWith (pool : List Int32) (n : Int32) : pool <+: poolWith pool n := by
  rw [poolWith]
  split
  · exact List.prefix_rfl
  · exact List.prefix_append pool [n]

/-- The constants are the integers of a pool, and the index is inverse to it. -/
structure Indexed (e : Emission) (pool : List Int32) : Prop where
  constants_eq : e.constants.toList = pool.map .integer
  index_iff : ∀ n place, e.index.get? n = some place ↔ pool[place]? = some n

theorem indexed_start : start.Indexed [] :=
  ⟨rfl, by simp [start]⟩

theorem Indexed.keep (h : e.Indexed pool) (hconstants : e'.constants = e.constants)
    (hindex : e'.index = e.index) : e'.Indexed pool :=
  ⟨hconstants ▸ h.constants_eq, hindex ▸ h.index_iff⟩

theorem getElem?_concat_iff {pool : List Int32} {n m : Int32} {place : Nat} :
    (pool ++ [n])[place]? = some m ↔ pool[place]? = some m ∨ place = pool.length ∧ n = m := by
  obtain hlt | heq | hgt := Nat.lt_trichotomy place pool.length
  · rw [List.getElem?_append_left hlt]
    simp [Nat.ne_of_lt hlt]
  · simp [heq]
  · have hold : pool[place]? = none := List.getElem?_eq_none (Nat.le_of_lt hgt)
    have hnew : (pool ++ [n])[place]? = none :=
      List.getElem?_eq_none (by rw [List.length_append]; exact hgt)
    simp [hold, hnew, Nat.ne_of_gt hgt]

/-- An integer is in the pool if the index has it. -/
theorem Indexed.mem_iff (h : e.Indexed pool) {n : Int32} :
    n ∈ pool ↔ ∃ place, e.index.get? n = some place := by
  simp only [h.index_iff, List.mem_iff_getElem?]

theorem Indexed.intern (h : e.Indexed pool) (n : Int32) :
    (e.intern n).1.Indexed (poolWith pool n) ∧ (poolWith pool n)[(e.intern n).2]? = some n := by
  rw [Emission.intern, poolWith]
  cases hplace : e.index.get? n with
  | some place =>
    rw [if_pos (h.mem_iff.2 ⟨place, hplace⟩)]
    exact ⟨h, (h.index_iff n place).1 hplace⟩
  | none =>
    have hnew : n ∉ pool := by simp [h.mem_iff, hplace]
    have hsize : e.constants.size = pool.length := by
      rw [← Array.length_toList, h.constants_eq, List.length_map]
    rw [if_neg hnew]
    refine ⟨⟨by simp [h.constants_eq], ?_⟩, by simp [hsize]⟩
    intro m place
    rw [Dictionary.get?_insert, getElem?_concat_iff, ← h.index_iff]
    by_cases hm : n = m
    -- The new integer is found at its new place only, as it had none before.
    · subst hm
      simp [hplace, hsize, eq_comm]
    · simp [hm]

theorem code_intern (e : Emission) (n : Int32) : (e.intern n).1.code = e.code := by
  rw [Emission.intern]
  split <;> rfl

/-- What adding an instruction of the block with source index `index` comes to. -/
inductive Adds (layout : Layout) (index : Nat) (e : Emission) : Instruction → Emission → Prop
  | mark {operand : Option Value} {position : Position} :
      Adds layout index e ⟨.mark, operand, position⟩ e
  | plain {op : Opcode} {position : Position} (hop : op.operand? = none) :
      Adds layout index e ⟨.op op, none, position⟩ { e with code := e.code.push op.word }
  | literal {op : Opcode} {n : Int32} {position : Position} (hop : op.operand? = some .constant) :
      Adds layout index e ⟨.op op, some (.integer n), position⟩
        ((e.intern n).1.put op (e.intern n).2)
  | jump {condition : Condition} {name : String} {position : Position} {target : Nat}
      (htarget : layout.mark? index name = some target) :
      Adds layout index e ⟨.op (.jump condition), some (.label name), position⟩
        (e.put (.jump condition) target)
  | call {name : String} {position : Position} {slot : Nat}
      (hslot : layout.slot? name = some slot) :
      Adds layout index e ⟨.op .call, some (.label name), position⟩ (e.put .call slot)

theorem add_inv {b : FlatBlock} {index : Nat} {i : Instruction}
    (h : add layout b index e i = .ok e') : Adds layout index e i e' := by
  simp only [add] at h
  obtain ⟨form, hform, h⟩ := bind_eq_ok h
  cases Instruction.hasForm_of_form? (FlatBlock.form?_of_form hform) with
  | mark _ => cases h; exact .mark
  | plain hop => cases h; exact .plain hop
  | literal hop => cases h; exact .literal hop
  | @jump condition name position =>
    cases htarget : layout.mark? index name with
    | none => simp only [htarget] at h; cases h
    | some target =>
      simp only [htarget] at h
      cases h
      exact .jump htarget
  | @call name position =>
    cases hslot : layout.slot? name with
    | none => simp only [hslot] at h; cases h
    | some slot =>
      simp only [hslot] at h
      cases h
      exact .call hslot

/-- Adding an instruction writes its words behind the others; the pool may grow. -/
theorem Indexed.add {b : FlatBlock} {index : Nat} {i : Instruction} (h : e.Indexed pool)
    (hadd : add layout b index e i = .ok e') :
    ∃ pool' words, e'.Indexed pool' ∧ pool <+: pool' ∧ Emits layout pool' index i words ∧
      e'.code.toList = e.code.toList ++ words := by
  cases add_inv hadd with
  | mark => exact ⟨pool, [], h, List.prefix_rfl, .mark, by simp⟩
  | plain hop => exact ⟨pool, _, h.keep rfl rfl, List.prefix_rfl, .plain hop, by simp⟩
  | @literal op n _ hop =>
    obtain ⟨hindexed, hplace⟩ := h.intern n
    refine ⟨poolWith pool n, _, hindexed.keep rfl rfl, prefix_poolWith pool n,
      .literal hop hplace, ?_⟩
    simp [put, code_intern]
  | jump htarget => exact ⟨pool, _, h.keep rfl rfl, List.prefix_rfl, .jump htarget, by simp [put]⟩
  | call hslot => exact ⟨pool, _, h.keep rfl rfl, List.prefix_rfl, .call hslot, by simp [put]⟩

/-! ## All instructions -/

theorem Indexed.foldlM_add {b : FlatBlock} {index : Nat} {is : List Instruction}
    (h : e.Indexed pool) (hfold : is.foldlM (Emission.add layout b index) e = .ok e') :
    ∃ pool' words, e'.Indexed pool' ∧ pool <+: pool' ∧
      List.Forall₂ (Emits layout pool' index) is words ∧
      e'.code.toList = e.code.toList ++ words.flatten := by
  induction is generalizing e pool with
  | nil => cases hfold; exact ⟨pool, [], h, List.prefix_rfl, .nil, by simp⟩
  | cons i is ih =>
    rw [List.foldlM_cons] at hfold
    obtain ⟨mid, hi, hfold⟩ := bind_eq_ok hfold
    obtain ⟨middle, words, hmid, hpool, hwords, hcode⟩ := h.add hi
    obtain ⟨pool', rest, hindexed, hpool', hrest, hcode'⟩ := ih hmid hfold
    -- The words of `i` were written for a smaller pool.
    refine ⟨pool', words :: rest, hindexed, hpool.trans hpool', .cons (hwords.mono hpool') hrest, ?_⟩
    rw [hcode', hcode, List.flatten_cons, List.append_assoc]

theorem Indexed.foldlM_addBlock {blocks : List (FlatBlock × Nat)}
    (h : e.Indexed pool) (hfold : blocks.foldlM (addBlock layout) e = .ok e') :
    ∃ pool' words, e'.Indexed pool' ∧ pool <+: pool' ∧
      List.Forall₂ (fun (block : FlatBlock × Nat) words =>
        List.Forall₂ (Emits layout pool' block.2) block.1.instructions words) blocks words ∧
      e'.code.toList = e.code.toList ++ (words.map List.flatten).flatten := by
  induction blocks generalizing e pool with
  | nil => cases hfold; exact ⟨pool, [], h, List.prefix_rfl, .nil, by simp⟩
  | cons block blocks ih =>
    rw [List.foldlM_cons] at hfold
    obtain ⟨mid, hblock, hfold⟩ := bind_eq_ok hfold
    obtain ⟨middle, words, hmid, hpool, hwords, hcode⟩ := h.foldlM_add hblock
    obtain ⟨pool', rest, hindexed, hpool', hrest, hcode'⟩ := ih hmid hfold
    -- So were the words of the whole block.
    refine ⟨pool', words :: rest, hindexed, hpool.trans hpool', .cons ?_ hrest, ?_⟩
    · exact hwords.imp fun _ _ hi => hi.mono hpool'
    · rw [hcode', hcode, List.map_cons, List.flatten_cons, List.append_assoc]

end Emission

theorem emit_words {blocks : List FlatBlock} {layout : Layout} {p : Program}
    (h : emit blocks layout = .ok p) :
    ∃ pool words, p.blocks = layout.table.toArray ∧ p.constants.toList = pool.map .integer ∧
      p.code.toList = (words.map List.flatten).flatten ∧
      EmitsBlocks layout pool blocks 0 words := by
  simp only [emit] at h
  obtain ⟨e, hfold, h⟩ := bind_eq_ok h
  cases h
  obtain ⟨pool, words, hindexed, -, hwords, hcode⟩ :=
    Emission.indexed_start.foldlM_addBlock hfold
  refine ⟨pool, words, rfl, hindexed.constants_eq, ?_, hwords⟩
  simpa [Emission.start] using hcode

/-! ## Assembled programs -/

theorem getElem?_middle {α : Type} (before own after : List α) {j : Nat} (hj : j < own.length) :
    (before ++ own ++ after)[before.length + j]? = own[j]? := by
  rw [List.append_assoc, List.getElem?_append_right (by omega), Nat.add_sub_cancel_left,
    List.getElem?_append_left hj]

theorem blockStart_cons_succ (b : FlatBlock) (blocks : List FlatBlock) (i : Nat) :
    blockStart (b :: blocks) (i + 1) = wordCount b.instructions + blockStart blocks i := by
  simp [blockStart]

namespace EmitsBlocks

variable {layout : Layout} {pool : List Int32} {blocks : List FlatBlock} {first : Nat}
  {words : List (List (List Nat))}

theorem length_eq (h : EmitsBlocks layout pool blocks first words) :
    (words.map List.flatten).flatten.length = blockStart blocks blocks.length := by
  induction blocks generalizing first words with
  | nil => cases h; rfl
  | cons b blocks ih =>
    cases h with
    | cons hb hrest =>
      rw [List.map_cons, List.flatten_cons, List.length_append, Emits.length_flatten hb, ih hrest,
        List.length_cons, blockStart_cons_succ]

/-- The code of a block stands behind that of the blocks before it. -/
theorem split (h : EmitsBlocks layout pool blocks first words) {i : Nat} {b : FlatBlock}
    (hb : blocks[i]? = some b) :
    ∃ before own after, (words.map List.flatten).flatten = before ++ own.flatten ++ after ∧
      before.length = blockStart blocks i ∧
      List.Forall₂ (Emits layout pool (first + i)) b.instructions own := by
  induction blocks generalizing first words i with
  | nil => cases hb
  | cons head blocks ih =>
    cases h with
    | @cons _ own _ rest hhead hrest =>
      cases i with
      | zero =>
        cases hb
        exact ⟨[], own, (rest.map List.flatten).flatten, by simp, rfl, hhead⟩
      | succ i =>
        rw [List.getElem?_cons_succ] at hb
        obtain ⟨before, own', after, hcode, hlength, hown⟩ := ih hrest hb
        refine ⟨own.flatten ++ before, own', after, ?_, ?_, ?_⟩
        · rw [List.map_cons, List.flatten_cons, hcode]
          simp [List.append_assoc]
        · rw [List.length_append, Emits.length_flatten hhead, hlength, blockStart_cons_succ]
        · rw [Nat.add_right_comm, Nat.add_assoc] at hown
          exact hown

/-- The words of an instruction stand behind those of its block's instructions before it. -/
theorem words_at (h : EmitsBlocks layout pool blocks first words) {i k : Nat} {b : FlatBlock}
    {ins : Instruction} (hb : blocks[i]? = some b) (hins : b.instructions[k]? = some ins) :
    ∃ own, Emits layout pool (first + i) ins own ∧ ∀ j < own.length,
      (words.map List.flatten).flatten[
        blockStart blocks i + wordCount (b.instructions.take k) + j]? = own[j]? := by
  obtain ⟨before, own, after, hcode, hlength, hown⟩ := h.split hb
  obtain ⟨hk, rfl⟩ := List.getElem?_eq_some_iff.1 hins
  have hk' : k < own.length := by rw [← hown.length_eq]; exact hk
  have hfront : (own.take k).flatten.length = wordCount (b.instructions.take k) :=
    Emits.length_flatten (List.forall₂_take k hown)
  have hsplit : own.flatten = (own.take k).flatten ++ own.get ⟨k, hk'⟩ ++
      (own.drop (k + 1)).flatten := by
    rw [List.append_assoc, ← List.flatten_cons, ← List.flatten_append]
    congr 1
    simp
  refine ⟨own.get ⟨k, hk'⟩, hown.get hk hk', ?_⟩
  intro j hj
  have hcode' : (words.map List.flatten).flatten = (before ++ (own.take k).flatten) ++
      own.get ⟨k, hk'⟩ ++ ((own.drop (k + 1)).flatten ++ after) := by
    rw [hcode, hsplit]
    simp only [List.append_assoc]
  rw [hcode', ← hlength, ← hfront, ← List.length_append, getElem?_middle _ _ _ hj]

end EmitsBlocks

/-- What is known of a program that was assembled from blocks, the one with source index `entry`
being its entry block. -/
structure Assembled (blocks : List FlatBlock) (entry : Nat) (layout : Layout) (pool : List Int32)
    (p : Program) : Prop where
  places : layout.Places blocks entry
  table : p.blocks = layout.table.toArray
  constants : p.constants.toList = pool.map .integer
  code : ∃ words, EmitsBlocks layout pool blocks 0 words ∧
    p.code.toList = (words.map List.flatten).flatten

theorem assembled_of_emit {blocks : List FlatBlock} {entry : String} {layout : Layout}
    {p : Program} (hlayout : Layout.ofBlocks blocks entry = .ok layout)
    (hemit : emit blocks layout = .ok p) :
    ∃ index pool, (blocks.findIdx? fun b => b.label == entry) = some index ∧
      Assembled blocks index layout pool p := by
  obtain ⟨index, hindex, hplaces⟩ := Layout.ofBlocks_places hlayout
  obtain ⟨pool, words, htable, hconstants, hcode, hwords⟩ := emit_words hemit
  exact ⟨index, pool, hindex, hplaces, htable, hconstants, words, hwords, hcode⟩

theorem assembled_of_assembleBlocks {blocks : List FlatBlock} {entry : String} {p : Program}
    (h : assembleBlocks blocks entry = .ok p) :
    ∃ index layout pool, (blocks.findIdx? fun b => b.label == entry) = some index ∧
      Assembled blocks index layout pool p := by
  simp only [assembleBlocks] at h
  obtain ⟨layout, hlayout, hemit⟩ := bind_eq_ok h
  obtain ⟨index, pool, hindex, hassembled⟩ := assembled_of_emit hlayout hemit
  exact ⟨index, layout, pool, hindex, hassembled⟩

namespace Assembled

variable {blocks : List FlatBlock} {entry : Nat} {layout : Layout} {pool : List Int32}
  {p : Program}

theorem code_size (h : Assembled blocks entry layout pool p) :
    p.code.size = blockStart blocks blocks.length := by
  obtain ⟨words, hwords, hcode⟩ := h.code
  rw [← Array.length_toList, hcode, hwords.length_eq]

theorem block_code (h : Assembled blocks entry layout pool p) {i : Nat} {b : FlatBlock}
    (hb : blocks[i]? = some b) :
    ∃ before own after, p.code.toList = before ++ own.flatten ++ after ∧
      before.length = blockStart blocks i ∧
      List.Forall₂ (Emits layout pool i) b.instructions own := by
  obtain ⟨words, hwords, hcode⟩ := h.code
  obtain ⟨before, own, after, hsplit, hlength, hown⟩ := hwords.split hb
  rw [Nat.zero_add] at hown
  exact ⟨before, own, after, hcode.trans hsplit, hlength, hown⟩

theorem code_at (h : Assembled blocks entry layout pool p) {i k : Nat} {b : FlatBlock}
    {ins : Instruction} (hb : blocks[i]? = some b) (hins : b.instructions[k]? = some ins) :
    ∃ words, Emits layout pool i ins words ∧ ∀ j < words.length,
      p.code[blockStart blocks i + wordCount (b.instructions.take k) + j]? = words[j]? := by
  obtain ⟨words, hwords, hcode⟩ := h.code
  obtain ⟨own, hown, hat⟩ := hwords.words_at hb hins
  rw [Nat.zero_add] at hown
  refine ⟨own, hown, ?_⟩
  intro j hj
  rw [← Array.getElem?_toList, hcode, hat j hj]

theorem block_at (h : Assembled blocks entry layout pool p) {i : Nat} (hi : i < blocks.length) :
    p.blocks[Layout.slotOf entry i]? = some (blockRange blocks i) := by
  rw [h.table, List.getElem?_toArray]
  exact h.places.table i hi

theorem entry_block (h : Assembled blocks entry layout pool p) :
    p.entry? = some (blockRange blocks entry) := by
  -- The entry block is the one that has the slot zero.
  have hentry := h.block_at h.places.entry_lt
  rw [Layout.slotOf, if_pos rfl] at hentry
  exact hentry

theorem constant_at (h : Assembled blocks entry layout pool p) {place : Nat} {n : Int32}
    (hplace : pool[place]? = some n) : p.constants[place]? = some (.integer n) := by
  rw [← Array.getElem?_toList, h.constants, List.getElem?_map, hplace]
  rfl

theorem blockRange_ordered (h : Assembled blocks entry layout pool p) {i : Nat}
    (hi : i < blocks.length) :
    (blockRange blocks i).start ≤ (blockRange blocks i).stop ∧
      (blockRange blocks i).stop ≤ p.code.size := by
  have hb : blocks[i]? = some blocks[i] := List.getElem?_eq_getElem hi
  obtain ⟨before, own, after, hcode, hlength, hown⟩ := h.block_code hb
  have hsize : p.code.size = before.length + own.flatten.length + after.length := by
    rw [← Array.length_toList, hcode, List.length_append, List.length_append]
  rw [Emits.length_flatten hown, hlength] at hsize
  simp only [blockRange, blockStart_succ hb]
  omega

end Assembled

end BlockMachine
