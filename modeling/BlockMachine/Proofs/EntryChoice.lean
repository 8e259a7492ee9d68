import BlockMachine.Proofs.AssemblyCorrectness
import BlockMachine.Proofs.AssemblyFaults
import BlockMachine.Proofs.ConstantPool
import BlockMachine.Proofs.DecodedCode
import Mathlib.Data.List.Perm.Basic

/-! # The choice of the entry block

The entry block comes first in the block table, and nothing else depends on which one it is: the
blocks keep their code ranges, and calls take the new slots of the blocks that they call.

* `SameItem` — instructions of two programs that do the same, calls by slots of their own;
* `Relocated` — two programs that differ in the order of their tables only;
* `Emits.relocate` — the words of one instruction for two entry blocks;
* `assembled_programs_relocated` — programs of the same blocks for any two entry blocks.
-/

namespace BlockMachine

/-! ## Programs with another table -/

inductive SameItem (p p' : Program) : Item → Item → Prop
  | same {offset : Nat} {op : Opcode} {operand : Option Nat} (hop : op ≠ .call) :
      SameItem p p' (.instruction offset op operand) (.instruction offset op operand)
  | call {offset slot slot' : Nat} {r : Range} (hslot : p.blocks[slot]? = some r)
      (hslot' : p'.blocks[slot']? = some r) :
      SameItem p p' (.instruction offset .call (some slot)) (.instruction offset .call (some slot'))

/-- Two programs with the blocks of the ranges, in tables of their own order. -/
structure Relocated (ranges : List Range) (p p' : Program) : Prop where
  constants : p.constants = p'.constants
  code_size : p.code.size = p'.code.size
  /-- words differ behind `CALL` at most -/
  code : ∀ k, p.code[k]? ≠ p'.code[k]? → ∃ r ∈ ranges, ∃ offset slot,
    k = offset + 1 ∧ .instruction offset .call (some slot) ∈ p.items r
  items : ∀ r ∈ ranges, List.Forall₂ (SameItem p p') (p.items r) (p'.items r)
  table : p.blocks.toList.Perm p'.blocks.toList
  executes : ∀ r ∈ ranges, ∀ maxCallDepth stack result left,
    (∃ fuel, (Machine.mk p maxCallDepth stack).execute fuel r = .stopped result left) ↔
      ∃ fuel, (Machine.mk p' maxCallDepth stack).execute fuel r = .stopped result left

theorem Layout.table_perm {blocks : List FlatBlock} {entry : String} {layout : Layout}
    (h : ofBlocks blocks entry = .ok layout) : layout.table.Perm layout.ranges := by
  obtain ⟨forms, index, hforms, hindex, rfl⟩ := ofBlocks_inv h
  have hlt : index < (tile 0 (forms.map codeWidth)).length := by
    rw [length_ranges hforms]
    exact (List.findIdx?_eq_some_iff_getElem.1 hindex).1
  simp only [List.getElem?_eq_getElem hlt, Option.toList_some]
  exact List.getElem_cons_eraseIdx_perm hlt

/-! ## The place of a word -/

theorem exists_of_lt_total {α : Type} {weight : α → Nat} {total : List α → Nat}
    (hnil : total [] = 0) (hcons : ∀ a as, total (a :: as) = weight a + total as) {as : List α}
    {n : Nat} (hn : n < total as) :
    ∃ k a j, as[k]? = some a ∧ j < weight a ∧ n = total (as.take k) + j := by
  induction as generalizing n with
  | nil => omega
  | cons a as ih =>
    -- Behind the first part the place is counted from its end.
    by_cases hfirst : n < weight a
    · exact ⟨0, a, n, rfl, hfirst, by simp [hnil]⟩
    · rw [hcons] at hn
      obtain ⟨k, a', j, ha', hj, heq⟩ := @ih (n - weight a) (by omega)
      refine ⟨k + 1, a', j, ha', hj, ?_⟩
      rw [List.take_succ_cons, hcons]
      omega

/-- Every word belongs to an instruction of some block. -/
theorem exists_instruction_of_lt {blocks : List FlatBlock} {n : Nat}
    (hn : n < blockStart blocks blocks.length) :
    ∃ i b k ins j, blocks[i]? = some b ∧ b.instructions[k]? = some ins ∧ j < ins.width ∧
      n = blockStart blocks i + wordCount (b.instructions.take k) + j := by
  let total (blocks : List FlatBlock) := wordCount (blocks.flatMap FlatBlock.instructions)
  have hcons (b : FlatBlock) (bs : List FlatBlock) :
      total (b :: bs) = wordCount b.instructions + total bs := by
    simp [total]
  have hall : n < total blocks := by rwa [blockStart, List.take_length] at hn
  obtain ⟨i, b, m, hb, hm, rfl⟩ := exists_of_lt_total rfl hcons hall
  obtain ⟨k, ins, j, hins, hj, rfl⟩ := exists_of_lt_total wordCount_nil wordCount_cons hm
  exact ⟨i, b, k, ins, j, hb, hins, hj, (Nat.add_assoc _ _ _).symm⟩

/-! ## Two entry blocks -/

section

variable {blocks : List FlatBlock} {entry entry' : Nat} {layout layout' : Layout}
  {pool : List Int32} {p p' : Program}

open Layout

/-- Only the slot behind `CALL` can be another one: marks are at the same offsets, and a literal has
only one place in the pool. -/
theorem Emits.relocate (hplaces : layout.Places blocks entry)
    (hplaces' : layout'.Places blocks entry') (hpool : pool.Nodup) {index : Nat} {b : FlatBlock}
    (hb : blocks[index]? = some b) {i : Instruction} {words words' : List Nat}
    (h : Emits layout pool index i words) (h' : Emits layout' pool index i words') :
    i.mnemonic ≠ .op .call ∧ words = words' ∨
      i.mnemonic = .op .call ∧ ∃ j < blocks.length,
        words = [Opcode.call.word, slotOf entry j] ∧
        words' = [Opcode.call.word, slotOf entry' j] := by
  cases h with
  | mark =>
    cases h'
    exact .inl ⟨by simp, rfl⟩
  | plain hop =>
    cases h'
    refine .inl ⟨?_, rfl⟩
    intro hcall
    cases hcall
    cases hop
  | @literal op n position place hop hplace =>
    cases h' with
    | @literal _ _ _ place' _ hplace' =>
      have hlt := (List.getElem?_eq_some_iff.1 hplace).1
      obtain rfl := (List.getElem?_inj hlt hpool).1 (hplace.trans hplace'.symm)
      refine .inl ⟨?_, rfl⟩
      intro hcall
      cases hcall
      cases hop
  | @jump condition name position target htarget =>
    cases h' with
    | @jump _ _ _ target' htarget' =>
      rw [hplaces.marks index b name hb] at htarget
      rw [hplaces'.marks index b name hb, htarget] at htarget'
      cases htarget'
      exact .inl ⟨by simp, rfl⟩
  | @call name position slot hslot =>
    cases h' with
    | @call _ _ slot' hslot' =>
      rw [hplaces.labels] at hslot
      rw [hplaces'.labels] at hslot'
      obtain ⟨j, hj, rfl⟩ := Option.map_eq_some_iff.1 hslot
      rw [hj] at hslot'
      cases hslot'
      exact .inr ⟨rfl, j, (List.findIdx?_eq_some_iff_getElem.1 hj).1, rfl, rfl⟩

namespace Assembled

theorem mem_items (h : Assembled blocks entry layout pool p) {i k : Nat} {b : FlatBlock}
    {ins : Instruction} {op : Opcode} (hb : blocks[i]? = some b)
    (hins : b.instructions[k]? = some ins) (hop : ins.mnemonic = .op op) :
    ∃ words, Emits layout pool i ins words ∧
      .instruction (blockStart blocks i + wordCount (b.instructions.take k)) op words[1]? ∈
        p.items (blockRange blocks i) := by
  have hsplit : b.instructions = b.instructions.take k ++ ins :: b.instructions.drop (k + 1) := by
    obtain ⟨hk, rfl⟩ := List.getElem?_eq_some_iff.1 hins
    rw [List.getElem_cons_drop, List.take_append_drop]
  have hcoded : coded b.instructions =
      coded (b.instructions.take k) ++ ins :: coded (b.instructions.drop (k + 1)) := by
    rw [← coded_cons_op hop, ← coded_append, ← hsplit]
  have hitems := (h.items_eq hb).2 (coded (b.instructions.take k)).length ins (by simp [hcoded])
  rw [hcoded, List.take_left, wordCount_coded] at hitems
  obtain ⟨item, hitem, op', words, hop', hemits, rfl⟩ := hitems
  rw [hop] at hop'
  cases hop'
  exact ⟨words, hemits, List.mem_of_getElem? hitem⟩

variable (h : Assembled blocks entry layout pool p) (h' : Assembled blocks entry' layout' pool p')
  (hpool : pool.Nodup)

include h h' hpool

theorem sameItem {i : Nat} {b : FlatBlock} (hb : blocks[i]? = some b) {offset : Nat}
    {ins : Instruction} {item item' : Item} (hitem : DecodesTo layout pool i offset ins item)
    (hitem' : DecodesTo layout' pool i offset ins item') : SameItem p p' item item' := by
  obtain ⟨op, words, hop, hemits, rfl⟩ := hitem
  obtain ⟨op', words', hop', hemits', rfl⟩ := hitem'
  rw [hop] at hop'
  cases hop'
  obtain ⟨hother, rfl⟩ | ⟨hcall, j, hj, rfl, rfl⟩ :=
    hemits.relocate h.places h'.places hpool hb hemits'
  · refine .same ?_
    rintro rfl
    exact hother hop
  · rw [hop] at hcall
    cases hcall
    exact .call (h.block_at hj) (h'.block_at hj)

theorem sameItems {i : Nat} (hi : i < blocks.length) :
    List.Forall₂ (SameItem p p') (p.items (blockRange blocks i))
      (p'.items (blockRange blocks i)) := by
  have hb : blocks[i]? = some blocks[i] := List.getElem?_eq_getElem hi
  obtain ⟨hlength, hitems⟩ := h.items_eq hb
  obtain ⟨hlength', hitems'⟩ := h'.items_eq hb
  refine List.forall₂_iff_get.2 ⟨hlength.trans hlength'.symm, ?_⟩
  intro k hk hk'
  have hins := List.getElem?_eq_getElem (hlength ▸ hk)
  obtain ⟨item, hitem, hdecodes⟩ := hitems k _ hins
  obtain ⟨item', hitem', hdecodes'⟩ := hitems' k _ hins
  have hsame := h.sameItem h' hpool hb hdecodes hdecodes'
  obtain ⟨_, rfl⟩ := List.getElem?_eq_some_iff.1 hitem
  obtain ⟨_, rfl⟩ := List.getElem?_eq_some_iff.1 hitem'
  exact hsame

theorem code_differs {n : Nat} (hn : p.code[n]? ≠ p'.code[n]?) :
    ∃ i < blocks.length, ∃ offset slot, n = offset + 1 ∧
      .instruction offset .call (some slot) ∈ p.items (blockRange blocks i) := by
  have hlt : n < blockStart blocks blocks.length := by
    by_contra hle
    rw [Array.getElem?_eq_none (h.code_size ▸ Nat.le_of_not_lt hle),
      Array.getElem?_eq_none (h'.code_size ▸ Nat.le_of_not_lt hle)] at hn
    exact hn rfl
  obtain ⟨i, b, k, ins, j, hb, hins, hj, rfl⟩ := exists_instruction_of_lt hlt
  obtain ⟨words, hemits, hwords⟩ := h.code_at hb hins
  obtain ⟨words', hemits', hwords'⟩ := h'.code_at hb hins
  rw [hwords j (hemits.length_eq ▸ hj), hwords' j (hemits'.length_eq ▸ hj)] at hn
  obtain ⟨-, rfl⟩ | ⟨hcall, j', -, rfl, rfl⟩ :=
    hemits.relocate h.places h'.places hpool hb hemits'
  · exact absurd rfl hn
  · -- The first of the two words is the opcode for both.
    obtain rfl : j = 1 := by
      have hj2 : j < 2 := hj.trans_eq hemits.length_eq.symm
      have hj0 : j ≠ 0 := by
        rintro rfl
        exact hn rfl
      omega
    -- Decoding finds the call at its offset.
    obtain ⟨words, hwords, hmem⟩ := h.mem_items hb hins hcall
    obtain ⟨mnemonic, operand, position⟩ := ins
    obtain rfl : mnemonic = .op .call := hcall
    cases hwords with
    | plain hop => cases hop
    | literal hop _ => cases hop
    | call hslot =>
      exact ⟨i, (List.getElem?_eq_some_iff.1 hb).1, _, _, rfl, hmem⟩

theorem relocated (htable : p.blocks.toList.Perm p'.blocks.toList) :
    Relocated layout.ranges p p' := by
  have hrange {r : Range} : r ∈ layout.ranges ↔ ∃ i < blocks.length, blockRange blocks i = r := by
    rw [h.places.ranges, List.mem_map]
    simp only [List.mem_range]
  constructor
  case constants => exact Array.toList_inj.1 (h.constants.trans h'.constants.symm)
  case code_size => rw [h.code_size, h'.code_size]
  case code =>
    intro n hn
    obtain ⟨i, hi, hcall⟩ := h.code_differs h' hpool hn
    exact ⟨_, hrange.2 ⟨i, hi, rfl⟩, hcall⟩
  case items =>
    intro r hr
    obtain ⟨i, hi, rfl⟩ := hrange.1 hr
    exact h.sameItems h' hpool hi
  case table => exact htable
  case executes =>
    intro r hr maxCallDepth stack result left
    obtain ⟨i, hi, rfl⟩ := hrange.1 hr
    rw [h.execute_stopped_iff hi, h'.execute_stopped_iff hi]

end Assembled

end

/-! ## Assembling -/

theorem blocksFault?_congr {blocks : List FlatBlock} {e e' : String}
    (he : ∃ b ∈ blocks, b.label = e) (he' : ∃ b ∈ blocks, b.label = e') :
    blocksFault? blocks e = blocksFault? blocks e' := by
  have hlabels {label : String} (hlabel : ∃ b ∈ blocks, b.label = label) :
      blocks.any (·.label == label) := by
    simpa using hlabel
  rw [blocksFault?, blocksFault?, if_pos (hlabels he), if_pos (hlabels he')]

theorem relocated_of_assembleBlocks {blocks : List FlatBlock} {e e' : String} {layout : Layout}
    {p p' : Program} (hlayout : Layout.ofBlocks blocks e = .ok layout)
    (hp : assembleBlocks blocks e = .ok p) (hp' : assembleBlocks blocks e' = .ok p') :
    Relocated layout.ranges p p' := by
  simp only [assembleBlocks] at hp hp'
  obtain ⟨_, hlayout₁, hemit⟩ := bind_eq_ok hp
  obtain ⟨layout', hlayout', hemit'⟩ := bind_eq_ok hp'
  cases hlayout.symm.trans hlayout₁
  -- The pools do not depend on the layouts, so they are the same.
  obtain ⟨entry, pool, -, h⟩ := assembled_of_emit hlayout hemit
  obtain ⟨entry', pool', -, h'⟩ := assembled_of_emit hlayout' hemit'
  obtain rfl := h.pool_eq hemit
  obtain rfl := h'.pool_eq hemit'
  refine h.relocated h' (nodup_eraseDups _) ?_
  rw [h.table, h'.table]
  have hranges : layout.ranges = layout'.ranges := h.places.ranges.trans h'.places.ranges.symm
  exact (Layout.table_perm hlayout).trans (hranges ▸ (Layout.table_perm hlayout').symm)

/-- Blocks that are assembled for another entry block give the same error, or a program with the
same blocks in another order, which are called by their new slots and do what they did. -/
theorem assembled_programs_relocated (blocks : List FlatBlock) (e e' : String)
    (he : ∃ b ∈ blocks, b.label = e) (he' : ∃ b ∈ blocks, b.label = e') :
    (∃ error, assembleBlocks blocks e = .error error ∧
      assembleBlocks blocks e' = .error error) ∨
    ∃ layout p p', Layout.ofBlocks blocks e = .ok layout ∧ assembleBlocks blocks e = .ok p ∧
      assembleBlocks blocks e' = .ok p' ∧ Relocated layout.ranges p p' := by
  have hfault : fault? (assembleBlocks blocks e) = fault? (assembleBlocks blocks e') := by
    rw [fault?_assembleBlocks, fault?_assembleBlocks, blocksFault?_congr he he']
  cases hp : assembleBlocks blocks e with
  | error error =>
    rw [hp] at hfault
    exact .inl ⟨error, rfl, fault?_eq_some.1 hfault.symm⟩
  | ok p =>
    rw [hp] at hfault
    obtain ⟨p', hp'⟩ := fault?_eq_none.1 hfault.symm
    obtain ⟨layout, hlayout, -⟩ := bind_eq_ok hp
    exact .inr ⟨layout, p, p', hlayout, rfl, hp', relocated_of_assembleBlocks hlayout hp hp'⟩

/-- Two calls that both get another slot. -/
theorem assembled_programs_relocated_two_calls :
    let code (m : Mnemonic) (operand : Option Value) : Instruction := ⟨m, operand, .start⟩
    let blocks : List FlatBlock :=
      [⟨"main", [code (.op .push) (some (.integer 2)), code (.op .call) (some (.label "down")),
          code (.op .call) (some (.label "idle")), code (.op .ret) none], 1⟩,
        ⟨"down", [code (.op (.act .dec)) none], 2⟩,
        ⟨"idle", [code (.op .push) (some (.integer 2))], 3⟩]
    let p : Program :=
      ⟨#[2, 0, 1, 1, 1, 2, 0, 10, 2, 0], #[.integer 2], #[⟨0, 7⟩, ⟨7, 8⟩, ⟨8, 10⟩]⟩
    let p' : Program :=
      ⟨#[2, 0, 1, 2, 1, 0, 0, 10, 2, 0], #[.integer 2], #[⟨8, 10⟩, ⟨0, 7⟩, ⟨7, 8⟩]⟩
    (∃ b ∈ blocks, b.label = "main") ∧ (∃ b ∈ blocks, b.label = "idle") ∧
      assembleBlocks blocks "main" = .ok p ∧ assembleBlocks blocks "idle" = .ok p' ∧
      Relocated [⟨0, 7⟩, ⟨7, 8⟩, ⟨8, 10⟩] p p' := by
  intro code blocks p p'
  have hmain : ∃ b ∈ blocks, b.label = "main" := ⟨_, .head _, rfl⟩
  have hidle : ∃ b ∈ blocks, b.label = "idle" := ⟨_, .tail _ (.tail _ (.head _)), rfl⟩
  have hp : assembleBlocks blocks "main" = .ok p := by decide +kernel
  have hp' : assembleBlocks blocks "idle" = .ok p' := by decide +kernel
  have hranges : (Layout.ofBlocks blocks "main").map Layout.ranges =
      .ok [⟨0, 7⟩, ⟨7, 8⟩, ⟨8, 10⟩] := by
    decide +kernel
  refine ⟨hmain, hidle, hp, hp', ?_⟩
  obtain ⟨error, herror, -⟩ | ⟨layout, q, q', hlayout, hq, hq', hrelocated⟩ :=
    assembled_programs_relocated blocks "main" "idle" hmain hidle
  · rw [hp] at herror
    cases herror
  · cases hp.symm.trans hq
    cases hp'.symm.trans hq'
    rw [hlayout] at hranges
    have hlist : layout.ranges = [⟨0, 7⟩, ⟨7, 8⟩, ⟨8, 10⟩] := Except.ok.inj hranges
    rwa [hlist] at hrelocated

end BlockMachine
