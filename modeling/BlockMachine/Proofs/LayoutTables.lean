import BlockMachine.Proofs.AssemblyFaults
import BlockMachine.Proofs.DecodedCode
import Mathlib.Data.List.Nodup
import Mathlib.Data.List.Perm.Subperm

/-! # The tables of a layout fit together

A layout has a table for the ranges of blocks, one for their slots, one for labels, one for marks,
and the block table that goes into the program.  Each is filled by a walk of its own; read side by
side they tell the same story about the blocks.

* `Layout.Tiles` — the ranges of the blocks lie one behind the other and fill the code;
* `Layout.Seats` — every block has a slot of its own, and the entry block the first one;
* `Layout.Names` — what labels and marks stand for;
* `Layout.ofBlocks_tables_fit` — all of this holds for every layout that is computed.
-/

namespace BlockMachine

/-! ## The last mark -/

theorem lastMark?_split {name : String} {mark : Instruction} {after : List Instruction}
    (before : List Instruction) (hmark : mark.marks name)
    (hafter : ∀ i ∈ after, i.marks name = false) :
    lastMark? name (before ++ mark :: after) = some (before.length + 1) := by
  induction before with
  | nil =>
    have hnone : lastMark? name after = none := by
      rw [← Option.not_isSome_iff_eq_none, isSome_lastMark?]
      simpa using hafter
    rw [List.nil_append, lastMark?, hnone, if_pos hmark]
    rfl
  | cons i before ih =>
    rw [List.cons_append, lastMark?, ih]
    rfl

namespace Layout

/-! ## Slots -/

theorem slotOf_injective {entry i j : Nat} (h : slotOf entry i = slotOf entry j) : i = j := by
  unfold slotOf at h
  split_ifs at h <;> omega

theorem slotOf_lt {entry i n : Nat} (hentry : entry < n) (hi : i < n) : slotOf entry i < n := by
  rw [slotOf]
  split
  · omega
  · split <;> omega

theorem slotOf_lt_slotOf {entry i j : Nat} (h : i < j) (hi : i ≠ entry) (hj : j ≠ entry) :
    slotOf entry i < slotOf entry j := by
  rw [slotOf, if_neg hi, slotOf, if_neg hj]
  split <;> split <;> omega

theorem slotOf_perm {entry n : Nat} (hentry : entry < n) :
    ((List.range n).map (slotOf entry)).Perm (List.range n) := by
  have hnodup : ((List.range n).map (slotOf entry)).Nodup :=
    List.nodup_range.map fun _ _ => slotOf_injective
  have hsubset : (List.range n).map (slotOf entry) ⊆ List.range n := by
    intro slot hslot
    obtain ⟨i, hi, rfl⟩ := List.mem_map.1 hslot
    exact List.mem_range.2 (slotOf_lt hentry (List.mem_range.1 hi))
  exact (List.subperm_of_subset hnodup hsubset).perm_of_length_le (by simp)

/-! ## Tables side by side -/

/-- The ranges are one for each block, and they lie one behind the other in source order. -/
structure Tiles (layout : Layout) (blocks : List FlatBlock) : Prop where
  length_ranges : layout.ranges.length = blocks.length
  first_start : layout.ranges.head?.map Range.start = some 0
  next_start : ∀ (i : Nat) (r s : Range), layout.ranges[i]? = some r →
    layout.ranges[i + 1]? = some s → s.start = r.stop
  last_stop : layout.ranges.getLast?.map Range.stop = some layout.codeLength
  /-- marks have no part in the width of a block -/
  stop_eq : ∀ (i : Nat) (b : FlatBlock) (r : Range), blocks[i]? = some b →
    layout.ranges[i]? = some r → r.stop = r.start + wordCount (coded b.instructions)

/-- Every slot of the block table is that of exactly one block, and it holds the range of that block.
The entry block is the first one with its label. -/
structure Seats (layout : Layout) (blocks : List FlatBlock) (entry : String) : Prop where
  slots_perm : layout.slots.Perm (List.range blocks.length)
  length_table : layout.table.length = blocks.length
  table_slot : ∀ i slot : Nat, layout.slots[i]? = some slot →
    layout.table[slot]? = layout.ranges[i]?
  entry_first : ∃ e, (blocks.findIdx? fun b => b.label == entry) = some e ∧
    layout.slots[e]? = some 0 ∧
    ∀ i j s t : Nat, i < j → i ≠ e → j ≠ e → layout.slots[i]? = some s →
      layout.slots[j]? = some t → s < t

/-- A label stands for the first block that has it, and a name for its last mark in a block. -/
structure Names (layout : Layout) (blocks : List FlatBlock) (entry : String) : Prop where
  slot_label : ∀ label, layout.slot? label =
    (blocks.findIdx? fun b => b.label == label).bind fun i => layout.slots[i]?
  slot_entry : layout.slot? entry = some 0
  mark_defined : ∀ i name, (layout.mark? i name).isSome ↔
    ∃ b, blocks[i]? = some b ∧ ∃ mark ∈ b.instructions, mark.marks name
  mark_offset : ∀ (i : Nat) (b : FlatBlock) (r : Range) (name : String)
    (before : List Instruction) (mark : Instruction) (after : List Instruction),
    blocks[i]? = some b → layout.ranges[i]? = some r → b.instructions = before ++ mark :: after →
    mark.marks name → (∀ later ∈ after, later.marks name = false) →
    layout.mark? i name = some (r.start + wordCount before)

section

variable {layout : Layout} {blocks : List FlatBlock} {entry : String} {e i : Nat}

namespace Places

theorem getElem?_ranges (h : layout.Places blocks e) {r : Range} (hr : layout.ranges[i]? = some r) :
    i < blocks.length ∧ r = blockRange blocks i := by
  rw [h.ranges, List.getElem?_map, Option.map_eq_some_iff] at hr
  obtain ⟨j, hj, rfl⟩ := hr
  obtain ⟨hlt, rfl⟩ := List.getElem?_eq_some_iff.1 hj
  rw [List.length_range] at hlt
  rw [List.getElem_range]
  exact ⟨hlt, rfl⟩

theorem getElem?_slots (h : layout.Places blocks e) (hi : i < blocks.length) :
    layout.slots[i]? = some (slotOf e i) := by
  rw [h.slots, List.getElem?_map, List.getElem?_range hi, Option.map_some]

theorem slot_inv (h : layout.Places blocks e) {slot : Nat} (hs : layout.slots[i]? = some slot) :
    i < blocks.length ∧ slot = slotOf e i := by
  have hlt := (List.getElem?_eq_some_iff.1 hs).1
  rw [h.slots, List.length_map, List.length_range] at hlt
  rw [h.getElem?_slots hlt] at hs
  cases hs
  exact ⟨hlt, rfl⟩

theorem tiles (h : layout.Places blocks e) : layout.Tiles blocks where
  length_ranges := by rw [h.ranges, List.length_map, List.length_range]
  first_start := by
    rw [h.ranges, List.head?_map, List.head?_range, if_neg (by have := h.entry_lt; omega)]
    rfl
  next_start := by
    intro i r s hr hs
    rw [(h.getElem?_ranges hr).2, (h.getElem?_ranges hs).2]
    rfl
  last_stop := by
    have hlast : blocks.length - 1 + 1 = blocks.length := by have := h.entry_lt; omega
    rw [h.ranges, List.getLast?_map, List.getLast?_range, if_neg (by have := h.entry_lt; omega),
      Option.map_some, Option.map_some, blockRange, hlast, h.codeLength]
  stop_eq := by
    intro i b r hb hr
    rw [(h.getElem?_ranges hr).2, wordCount_coded]
    exact blockStart_succ hb

end Places

theorem length_table_of_ofBlocks (h : ofBlocks blocks entry = .ok layout) :
    layout.table.length = blocks.length := by
  obtain ⟨forms, index, hforms, hindex, rfl⟩ := ofBlocks_inv h
  have hlength := length_ranges hforms
  have hlt : index < blocks.length := (List.findIdx?_eq_some_iff_getElem.1 hindex).1
  simp only [List.length_append, List.getElem?_eq_getElem (hlength.symm ▸ hlt),
    Option.toList_some, List.length_singleton, List.length_eraseIdx_of_lt (hlength.symm ▸ hlt)]
  omega

theorem seats_of_ofBlocks (h : ofBlocks blocks entry = .ok layout) : layout.Seats blocks entry := by
  obtain ⟨e, he, hplaces⟩ := ofBlocks_places h
  constructor
  case slots_perm =>
    rw [hplaces.slots]
    exact slotOf_perm hplaces.entry_lt
  case length_table => exact length_table_of_ofBlocks h
  case table_slot =>
    intro i slot hslot
    obtain ⟨hi, rfl⟩ := hplaces.slot_inv hslot
    rw [hplaces.table i hi, hplaces.ranges, List.getElem?_map, List.getElem?_range hi,
      Option.map_some]
  case entry_first =>
    refine ⟨e, he, ?_, ?_⟩
    · rw [hplaces.getElem?_slots hplaces.entry_lt, slotOf, if_pos rfl]
    · intro i j s t hij hi hj hs ht
      rw [(hplaces.slot_inv hs).2, (hplaces.slot_inv ht).2]
      exact slotOf_lt_slotOf hij hi hj

/-- There are no marks of blocks that do not exist. -/
theorem mark?_of_ofBlocks (h : ofBlocks blocks entry = .ok layout) (hi : blocks[i]? = none)
    (name : String) : layout.mark? i name = none := by
  obtain ⟨forms, index, hforms, _, rfl⟩ := ofBlocks_inv h
  have hlength : blocks.length = forms.length := hforms.length_eq
  have hzip : ∀ ranges : List Range, (ranges.zip forms)[i]? = none := by
    intro ranges
    rw [List.getElem?_eq_none_iff, List.length_zip]
    rw [List.getElem?_eq_none_iff] at hi
    omega
  show (collectMarks _ forms).get? (i, name) = none
  rw [get?_collectMarks, hzip]
  rfl

theorem names_of_ofBlocks (h : ofBlocks blocks entry = .ok layout) : layout.Names blocks entry := by
  obtain ⟨e, he, hplaces⟩ := ofBlocks_places h
  constructor
  case slot_label =>
    intro label
    rw [hplaces.labels]
    cases hfirst : blocks.findIdx? fun b => b.label == label with
    | none => rfl
    | some i =>
      have hi : i < blocks.length := (List.findIdx?_eq_some_iff_getElem.1 hfirst).1
      rw [Option.map_some, Option.bind_some, hplaces.getElem?_slots hi]
  case slot_entry => rw [hplaces.labels, he, Option.map_some, slotOf, if_pos rfl]
  case mark_defined =>
    intro i name
    cases hb : blocks[i]? with
    | none => simp [mark?_of_ofBlocks h hb name]
    | some b =>
      rw [hplaces.marks i b name hb, Option.isSome_map, isSome_lastMark?, List.any_eq_true]
      simp
  case mark_offset =>
    intro i b r name before mark after hb hr hsplit hmark hafter
    rw [hplaces.marks i b name hb, hsplit, lastMark?_split before hmark hafter, Option.map_some,
      wordCount_take_mark hmark, (hplaces.getElem?_ranges hr).2]
    rfl

/-- The ranges of a computed layout tile the code, every block has its slot in the block table, and
labels and marks stand for the blocks and offsets they name. -/
theorem ofBlocks_tables_fit (h : ofBlocks blocks entry = .ok layout) :
    layout.Tiles blocks ∧ layout.Seats blocks entry ∧ layout.Names blocks entry := by
  obtain ⟨_, _, hplaces⟩ := ofBlocks_places h
  exact ⟨hplaces.tiles, seats_of_ofBlocks h, names_of_ofBlocks h⟩

/-- Both labels are given to two blocks, one of them is empty and belongs to the entry block, which
is not the first block and has no code; a name is marked twice. -/
theorem ofBlocks_tables_fit_repeated_labels :
    let code (m : Mnemonic) (operand : Option Value) : Instruction := ⟨m, operand, .start⟩
    let x : Instruction := code .mark (some (.label "x"))
    let blocks : List FlatBlock :=
      [⟨"f", [x, code (.op .ret) none, x], 1⟩, ⟨"", [], 2⟩, ⟨"f", [], 3⟩,
        ⟨"", [code (.op .push) (some (.integer 7))], 4⟩]
    let layout : Layout :=
      ⟨[⟨0, 1⟩, ⟨1, 1⟩, ⟨1, 1⟩, ⟨1, 3⟩], [⟨1, 1⟩, ⟨0, 1⟩, ⟨1, 1⟩, ⟨1, 3⟩], [1, 0, 2, 3],
        ⟨[("f", 1), ("", 0)]⟩, ⟨[((0, "x"), 1)]⟩, 3⟩
    ofBlocks blocks "" = .ok layout ∧
      layout.Tiles blocks ∧ layout.Seats blocks "" ∧ layout.Names blocks "" := by
  intro code x blocks layout
  have h : ofBlocks blocks "" = .ok layout := by decide +kernel
  exact ⟨h, ofBlocks_tables_fit h⟩

end

end Layout

end BlockMachine
