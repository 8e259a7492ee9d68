import BlockMachine.Proofs.EmittedCode
import Mathlib.Data.List.Nodup

/-! # The pool of constants

Which constants a program has does not depend on where its blocks are: emission takes up a literal
when it comes to it, unless it has it already.

* `Instruction.literal?`, `literals` — the literals of instructions, in order;
* `Emission.Holds` — the pool after literals: each of them once, at its first use, where the index
  has it; this is kept by every instruction (`Holds.add`) and by the whole walk
  (`Emission.holds_of_walk`);
* `constants_of_emit`, `Assembled.pool_eq` — so for all blocks, whatever the layout is;
* `WrittenAt` — the instructions of the source by the code offset of their words;
* `LiteralPool`, `constants_determined_by_blocks` — the pool and the words that refer to it.
-/

namespace BlockMachine

/-- The integer behind `PUSH` or `POP_N`. -/
def Instruction.literal? (i : Instruction) : Option Int32 :=
  match i.mnemonic, i.operand with
  | .op .push, some (.integer n) | .op .popN, some (.integer n) => some n
  | _, _ => none

def literals (is : List Instruction) : List Int32 :=
  is.filterMap Instruction.literal?

theorem literal?_of_constant {op : Opcode} (hop : op.operand? = some .constant) (n : Int32)
    (position : Position) :
    Instruction.literal? ⟨.op op, some (.integer n), position⟩ = some n := by
  cases op with
  | push | popN => rfl
  | ret | call | jump _ | act _ => cases hop

theorem operand?_eq_constant {op : Opcode} :
    op.operand? = some .constant ↔ op = .push ∨ op = .popN := by
  cases op <;> simp [Opcode.operand?]

theorem constant_of_literal? {i : Instruction} {n : Int32} (h : i.literal? = some n) :
    ∃ op position, op.operand? = some .constant ∧ i = ⟨.op op, some (.integer n), position⟩ := by
  obtain ⟨mnemonic, operand, position⟩ := i
  simp only [Instruction.literal?] at h
  split at h
  · cases h
    exact ⟨.push, position, rfl, rfl⟩
  · cases h
    exact ⟨.popN, position, rfl, rfl⟩
  · cases h

theorem literal?_of_plain (op : Opcode) (position : Position) :
    Instruction.literal? ⟨.op op, none, position⟩ = none := by
  cases op <;> rfl

theorem nodup_eraseDups {α : Type} [BEq α] [LawfulBEq α] : ∀ as : List α, as.eraseDups.Nodup
  | [] => by simp
  | a :: as => by
    rw [List.eraseDups_cons, List.nodup_cons]
    exact ⟨by simp [List.mem_eraseDups], nodup_eraseDups _⟩
termination_by as => as.length
decreasing_by exact Nat.lt_succ_of_le (List.length_filter_le _ _)

/-! ## One step of emission -/

namespace Emission

variable {layout : Layout} {e e' : Emission} {seen : List Int32}

/-- The pool has the literals seen so far, without repetitions. -/
def Holds (e : Emission) (seen : List Int32) : Prop :=
  e.Indexed seen.eraseDups

theorem holds_start : start.Holds [] :=
  indexed_start

/-- A literal that was seen before is a repetition. -/
theorem poolWith_eraseDups (seen : List Int32) (n : Int32) :
    poolWith seen.eraseDups n = (seen ++ [n]).eraseDups := by
  rw [poolWith, List.eraseDups_append]
  by_cases hmem : n ∈ seen
  · simp [List.removeAll, List.mem_eraseDups, hmem]
  · simp [List.removeAll, List.mem_eraseDups, hmem, List.eraseDups_cons]

theorem Holds.intern (h : e.Holds seen) (n : Int32) : (e.intern n).1.Holds (seen ++ [n]) := by
  rw [Holds, ← poolWith_eraseDups]
  exact (Indexed.intern h n).1

theorem Holds.keep {i : Instruction} (h : e.Holds seen) (hconstants : e'.constants = e.constants)
    (hindex : e'.index = e.index) (hnone : i.literal? = none) :
    e'.Holds (seen ++ i.literal?.toList) := by
  rw [hnone, Option.toList_none, List.append_nil]
  exact Indexed.keep h hconstants hindex

theorem Holds.add {b : FlatBlock} {index : Nat} {i : Instruction} (h : e.Holds seen)
    (hadd : add layout b index e i = .ok e') : e'.Holds (seen ++ i.literal?.toList) := by
  cases add_inv hadd with
  | mark => exact h.keep rfl rfl rfl
  | plain _ => exact h.keep rfl rfl (literal?_of_plain _ _)
  | @literal _ n _ hop =>
    rw [literal?_of_constant hop]
    exact Indexed.keep (h.intern n) rfl rfl
  | jump _ | call _ => exact h.keep rfl rfl rfl

/-! ## All instructions -/

/-- The literals of a walk are those of its steps, one behind the other. -/
theorem Holds.foldlM {α : Type} {f : Emission → α → Except LayoutError Emission}
    {found : α → List Int32}
    (hf : ∀ e e' seen a, Holds e seen → f e a = .ok e' → e'.Holds (seen ++ found a))
    {as : List α} (h : e.Holds seen) (hfold : as.foldlM f e = .ok e') :
    e'.Holds (seen ++ as.flatMap found) := by
  induction as generalizing e seen with
  | nil =>
    cases hfold
    simpa using h
  | cons a as ih =>
    rw [List.foldlM_cons] at hfold
    obtain ⟨mid, ha, hfold⟩ := bind_eq_ok hfold
    rw [List.flatMap_cons, ← List.append_assoc]
    exact ih (hf e mid seen a h ha) hfold

theorem Holds.addBlock {block : FlatBlock × Nat} (h : e.Holds seen)
    (hblock : addBlock layout e block = .ok e') :
    e'.Holds (seen ++ literals block.1.instructions) := by
  rw [literals, List.filterMap_eq_flatMap_toList]
  exact h.foldlM (fun _ _ _ _ he hadd => he.add hadd) hblock

/-- Behind the walk over all blocks, the index still has every literal at its place among the
constants, and nothing else. -/
theorem holds_of_walk {blocks : List FlatBlock}
    (h : blocks.zipIdx.foldlM (Emission.addBlock layout) start = .ok e) :
    e.Holds (literals (blocks.flatMap FlatBlock.instructions)) := by
  have hwalk := holds_start.foldlM (fun _ _ _ _ he hblock => he.addBlock hblock) h
  have hliterals : blocks.zipIdx.flatMap (fun block => literals block.1.instructions) =
      literals (blocks.flatMap FlatBlock.instructions) := by
    calc blocks.zipIdx.flatMap (fun block => literals block.1.instructions)
        = (blocks.zipIdx.map Prod.fst).flatMap fun b => literals b.instructions := by
          rw [List.flatMap_map]
      _ = literals (blocks.flatMap FlatBlock.instructions) := by
          rw [List.zipIdx_map_fst, literals, List.filterMap_flatMap]
          rfl
  rwa [List.nil_append, hliterals] at hwalk

end Emission

/-- The constants of a program are the literals of its blocks, each once and in the order of their
first use. -/
theorem constants_of_emit {blocks : List FlatBlock} {layout : Layout} {p : Program}
    (h : emit blocks layout = .ok p) :
    p.constants.toList =
      (literals (blocks.flatMap FlatBlock.instructions)).eraseDups.map .integer := by
  simp only [emit] at h
  obtain ⟨e, hwalk, h⟩ := bind_eq_ok h
  cases h
  exact (Emission.holds_of_walk hwalk).constants_eq

/-- The pool of an assembled program is that of its blocks. -/
theorem Assembled.pool_eq {blocks : List FlatBlock} {entry : Nat} {layout : Layout}
    {pool : List Int32} {p : Program} (h : Assembled blocks entry layout pool p)
    (hemit : emit blocks layout = .ok p) :
    pool = (literals (blocks.flatMap FlatBlock.instructions)).eraseDups := by
  have hinj : Function.Injective Value.integer := fun _ _ => Value.integer.inj
  exact hinj.list_map (h.constants.symm.trans (constants_of_emit hemit))

/-! ## Operand words -/

/-- The source has this instruction, and its words start at this code offset. -/
def WrittenAt (blocks : List FlatBlock) (op : Opcode) (operand : Option Value) (offset : Nat) :
    Prop :=
  ∃ i b k position, blocks[i]? = some b ∧ b.instructions[k]? = some ⟨.op op, operand, position⟩ ∧
    offset = blockStart blocks i + wordCount (b.instructions.take k)

theorem exists_writtenAt_of_literal {blocks : List FlatBlock} {n : Int32}
    (hn : n ∈ literals (blocks.flatMap FlatBlock.instructions)) :
    ∃ op offset, op.operand? = some .constant ∧ WrittenAt blocks op (some (.integer n)) offset := by
  obtain ⟨i, hi, hliteral⟩ := List.mem_filterMap.1 hn
  obtain ⟨b, hb, hi⟩ := List.mem_flatMap.1 hi
  obtain ⟨index, hindex⟩ := List.mem_iff_getElem?.1 hb
  obtain ⟨k, hk⟩ := List.mem_iff_getElem?.1 hi
  obtain ⟨op, position, hop, rfl⟩ := constant_of_literal? hliteral
  exact ⟨op, _, hop, index, b, k, position, hindex, hk, rfl⟩

/-- The word behind an opcode that takes a constant is the place of the literal in the pool. -/
theorem operand_of_emit {blocks : List FlatBlock} {layout : Layout} {p : Program}
    (h : emit blocks layout = .ok p) {op : Opcode} {operand : Option Value} {offset : Nat}
    (hop : op.operand? = some .constant) (hat : WrittenAt blocks op operand offset) :
    ∃ n place, operand = some (.integer n) ∧ p.code[offset]? = some op.word ∧
      p.code[offset + 1]? = some place ∧ p.constants[place]? = some (.integer n) := by
  obtain ⟨i, b, k, position, hb, hins, rfl⟩ := hat
  obtain ⟨pool, words, -, hconstants, hcode, hwords⟩ := emit_words h
  obtain ⟨own, hown, hat⟩ := hwords.words_at hb hins
  cases hown with
  | plain hplain =>
    rw [hplain] at hop
    cases hop
  | @literal _ n _ place _ hplace =>
    refine ⟨n, place, rfl, ?_, ?_, ?_⟩
    · rw [← Array.getElem?_toList, hcode]
      exact hat 0 (by simp)
    · rw [← Array.getElem?_toList, hcode]
      exact hat 1 (by simp)
    · rw [← Array.getElem?_toList, hconstants, List.getElem?_map, hplace]
      rfl
  | jump _ => cases hop
  | call _ => cases hop

/-- The constants of a program as its blocks determine them. -/
structure LiteralPool (blocks : List FlatBlock) (p : Program) : Prop where
  /-- the literals, each at its first use -/
  first_uses : p.constants.toList =
    (literals (blocks.flatMap FlatBlock.instructions)).eraseDups.map .integer
  nodup : p.constants.toList.Nodup
  no_label : ∀ name, .label name ∉ p.constants
  /-- every instruction that takes a constant has an integer, and the place of that one as its
  operand word -/
  operand : ∀ op operand offset, op = .push ∨ op = .popN → WrittenAt blocks op operand offset →
    ∃ n place, operand = some (.integer n) ∧ p.code[offset]? = some op.word ∧
      p.code[offset + 1]? = some place ∧ p.constants[place]? = some (.integer n)
  /-- every place is the operand word of such an instruction -/
  used : ∀ place < p.constants.size, ∃ op operand offset, (op = .push ∨ op = .popN) ∧
    WrittenAt blocks op operand offset ∧ p.code[offset + 1]? = some place

theorem literalPool_of_emit {blocks : List FlatBlock} {layout : Layout} {p : Program}
    (h : emit blocks layout = .ok p) : LiteralPool blocks p := by
  have hconstants := constants_of_emit h
  have hnodup : p.constants.toList.Nodup := by
    rw [hconstants]
    exact (nodup_eraseDups _).map fun _ _ => Value.integer.inj
  refine ⟨hconstants, hnodup, ?_, ?_, ?_⟩
  · intro name hname
    rw [← Array.mem_toList_iff, hconstants] at hname
    obtain ⟨n, -, hn⟩ := List.mem_map.1 hname
    cases hn
  · intro op operand offset hop hat
    exact operand_of_emit h (operand?_eq_constant.2 hop) hat
  · intro place hplace
    obtain ⟨n, hn, hvalue⟩ : ∃ n ∈ (literals (blocks.flatMap FlatBlock.instructions)).eraseDups,
        .integer n = p.constants[place] := by
      rw [← List.mem_map, ← hconstants]
      exact Array.getElem_mem_toList hplace
    obtain ⟨op, offset, hop, hat⟩ := exists_writtenAt_of_literal (List.mem_eraseDups.1 hn)
    obtain ⟨_, place', hsame, -, hword, hplace'⟩ := operand_of_emit h hop hat
    cases hsame
    -- The integer has only one place.
    obtain rfl : place' = place := by
      have hplace : p.constants.toList[place]? = some (.integer n) := by
        rw [Array.getElem?_toList, Array.getElem?_eq_getElem hplace, hvalue]
      rw [← Array.getElem?_toList] at hplace'
      have hlt := (List.getElem?_eq_some_iff.1 hplace').1
      exact (List.getElem?_inj hlt hnodup).1 (hplace'.trans hplace.symm)
    exact ⟨op, _, offset, operand?_eq_constant.1 hop, hat, hword⟩

/-- The constants of an emitted program are the literals of the blocks, each once and in the order
of their first use; each of them is referred to, and all literals by their own place.  So they are
the same for all layouts, whether or not these belong to the blocks. -/
theorem constants_determined_by_blocks {blocks : List FlatBlock} {layout : Layout} {p : Program}
    (h : emit blocks layout = .ok p) :
    LiteralPool blocks p ∧
      ∀ layout' p', emit blocks layout' = .ok p' → p'.constants = p.constants := by
  refine ⟨literalPool_of_emit h, ?_⟩
  intro layout' p' h'
  rw [← Array.toList_inj, (literalPool_of_emit h').first_uses,
    (literalPool_of_emit h).first_uses]

/-- Two blocks with repeated literals and a layout that is not theirs: it has one reversed range and
an offset and a slot that are nowhere. -/
theorem constants_determined_by_blocks_foreign_layout :
    let code (op : Opcode) (operand : Value) : Instruction := ⟨.op op, some operand, .start⟩
    let blocks : List FlatBlock :=
      [⟨"a", [code .push (.integer 5), code (.jump .always) (.label "x"),
          code .push (.integer (-1))], 1⟩,
        ⟨"b", [code .popN (.integer 5), code .call (.label "f"), code .push (.integer 8),
          code .push (.integer (-1))], 2⟩]
    let layout : Layout := ⟨[], [⟨9, 3⟩], [], ⟨[("f", 40)]⟩, ⟨[((0, "x"), 77)]⟩, 0⟩
    let p : Program := ⟨#[2, 0, 5, 77, 2, 1, 4, 0, 1, 40, 2, 2, 2, 1],
      #[.integer 5, .integer (-1), .integer 8], #[⟨9, 3⟩]⟩
    emit blocks layout = .ok p ∧ LiteralPool blocks p ∧
      ∀ layout' p', emit blocks layout' = .ok p' → p'.constants = p.constants := by
  intro code blocks layout p
  have h : emit blocks layout = .ok p := by decide +kernel
  exact ⟨h, constants_determined_by_blocks h⟩

end BlockMachine
