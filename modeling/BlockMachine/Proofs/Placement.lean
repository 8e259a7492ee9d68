import BlockMachine.Layout
import BlockMachine.Proofs.Results

/-! # Where a layout places blocks and marks

A layout is computed by separate walks over the blocks, each with its own convention.  Here its
tables are said in terms of the source blocks alone:

* `wordCount` — the number of code words of instructions, of which marks have none;
* `blockRange` — the code range of a block: it starts where the one before ends;
* `lastMark?` — the place behind the last mark of a name;
* `Layout.slotOf` — the table slot of a block, and `Layout.seats_eq`, that the table is filled so;
* `Layout.Places` — what every table of a layout says, and `Layout.ofBlocks_places`, that a layout
  that was computed says so.
-/

namespace BlockMachine

/-! ## Offsets in source terms -/

def Instruction.width (i : Instruction) : Nat :=
  match i.mnemonic.opcode? with
  | some op => op.width
  | none => 0

def wordCount : List Instruction → Nat
  | [] => 0
  | i :: is => i.width + wordCount is

@[simp] theorem wordCount_nil : wordCount [] = 0 := rfl

@[simp] theorem wordCount_cons (i : Instruction) (is : List Instruction) :
    wordCount (i :: is) = i.width + wordCount is := rfl

@[simp] theorem wordCount_append (is is' : List Instruction) :
    wordCount (is ++ is') = wordCount is + wordCount is' := by
  induction is with
  | nil => simp
  | cons i is ih => rw [List.cons_append, wordCount_cons, wordCount_cons, ih, Nat.add_assoc]

theorem wordCount_take_le (is : List Instruction) (k : Nat) :
    wordCount (is.take k) ≤ wordCount is := by
  have hsplit : wordCount (is.take k ++ is.drop k) = wordCount is := by rw [List.take_append_drop]
  rw [wordCount_append] at hsplit
  omega

theorem wordCount_take_succ {is : List Instruction} {k : Nat} {i : Instruction}
    (h : is[k]? = some i) : wordCount (is.take (k + 1)) = wordCount (is.take k) + i.width := by
  rw [List.take_add_one, h, wordCount_append]
  simp

def blockStart (blocks : List FlatBlock) (i : Nat) : Nat :=
  wordCount ((blocks.take i).flatMap FlatBlock.instructions)

def blockRange (blocks : List FlatBlock) (i : Nat) : Range :=
  ⟨blockStart blocks i, blockStart blocks (i + 1)⟩

theorem blockStart_succ {blocks : List FlatBlock} {i : Nat} {b : FlatBlock}
    (h : blocks[i]? = some b) :
    blockStart blocks (i + 1) = blockStart blocks i + wordCount b.instructions := by
  simp [blockStart, List.take_add_one, h]

/-- Whether an instruction is a mark of the name.  A mark without a name marks the empty one. -/
def Instruction.marks (i : Instruction) (name : String) : Bool :=
  match i.mnemonic, i.operand with
  | .mark, some (.label label) => label == name
  | .mark, _ => "" == name
  | _, _ => false

theorem Instruction.width_of_marks {i : Instruction} {name : String} (h : i.marks name) :
    i.width = 0 := by
  obtain ⟨mnemonic, operand, position⟩ := i
  cases mnemonic with
  | op op => cases h
  | endBlock => cases h
  | mark => rfl

/-- A mark has no words, so the offset behind it is the one in front of it. -/
theorem wordCount_take_mark {mark : Instruction} {name : String} (h : mark.marks name)
    (before after : List Instruction) :
    wordCount ((before ++ mark :: after).take (before.length + 1)) = wordCount before := by
  have htake : (before ++ mark :: after).take (before.length + 1) = before ++ [mark] := by
    rw [List.take_append, List.take_of_length_le (Nat.le_succ _), Nat.add_sub_cancel_left]
    rfl
  rw [htake, wordCount_append, wordCount_cons, Instruction.width_of_marks h]
  rfl

/-- The number of instructions up to and with the last mark of a name. -/
def lastMark? (name : String) : List Instruction → Option Nat
  | [] => none
  | i :: rest => ((lastMark? name rest).map (· + 1)).or (if i.marks name then some 1 else none)

theorem lastMark?_eq_none {name : String} {is : List Instruction}
    (h : lastMark? name is = none) : ∀ i ∈ is, i.marks name = false := by
  induction is with
  | nil => nofun
  | cons i rest ih =>
    simp only [lastMark?, Option.or_eq_none_iff, Option.map_eq_none_iff] at h
    intro i' hi'
    cases hi' with
    | head =>
      by_contra hmarks
      simp [hmarks] at h
    | tail _ hi' => exact ih h.1 i' hi'

theorem lastMark?_eq_some {name : String} {is : List Instruction} {k : Nat}
    (h : lastMark? name is = some k) :
    ∃ before mark after, is = before ++ mark :: after ∧ k = before.length + 1 ∧
      mark.marks name ∧ ∀ i ∈ after, i.marks name = false := by
  induction is generalizing k with
  | nil => cases h
  | cons i rest ih =>
    rw [lastMark?] at h
    cases hrest : lastMark? name rest with
    -- A mark further behind comes before the head.
    | some k' =>
      rw [hrest, Option.map_some, Option.some_or] at h
      obtain ⟨before, mark, after, rfl, rfl, hmark, hafter⟩ := ih hrest
      cases h
      exact ⟨i :: before, mark, after, rfl, rfl, hmark, hafter⟩
    | none =>
      rw [hrest, Option.map_none, Option.none_or] at h
      by_cases hmarks : i.marks name
      · rw [if_pos hmarks] at h
        cases h
        exact ⟨[], i, rest, rfl, rfl, hmarks, lastMark?_eq_none hrest⟩
      · rw [if_neg hmarks] at h
        cases h

/-! ## Forms -/

theorem FlatBlock.form?_of_form {b : FlatBlock} {i : Instruction} {form : Form}
    (h : b.form i = .ok form) : i.form? = some form := by
  simp only [FlatBlock.form] at h
  cases hform : i.form? with
  | none => rw [hform] at h; cases h
  | some form' => rw [hform] at h; cases h; rfl

inductive Instruction.HasForm : Instruction → Form → Prop
  | mark {operand : Option Value} {position : Position} {name : String}
      (hmarks : ∀ other, (Instruction.mk .mark operand position).marks other = (name == other)) :
      HasForm ⟨.mark, operand, position⟩ (.mark name)
  | plain {op : Opcode} {position : Position} (hop : op.operand? = none) :
      HasForm ⟨.op op, none, position⟩ (.plain op)
  | literal {op : Opcode} {n : Int32} {position : Position} (hop : op.operand? = some .constant) :
      HasForm ⟨.op op, some (.integer n), position⟩ (.literal op n)
  | jump {condition : Condition} {name : String} {position : Position} :
      HasForm ⟨.op (.jump condition), some (.label name), position⟩ (.jump condition name)
  | call {name : String} {position : Position} :
      HasForm ⟨.op .call, some (.label name), position⟩ (.call name)

theorem Instruction.hasForm_of_form? {i : Instruction} {form : Form} (h : i.form? = some form) :
    i.HasForm form := by
  obtain ⟨mnemonic, operand, position⟩ := i
  cases mnemonic with
  | endBlock => cases h
  | mark =>
    obtain _ | (n | name) := operand
    · cases h; exact .mark fun _ => rfl
    · cases h; exact .mark fun _ => rfl
    · cases h; exact .mark fun _ => rfl
  | op op =>
    cases op with
    | ret | act =>
      obtain _ | (n | name) := operand
      · cases h; exact .plain rfl
      · cases h
      · cases h
    | push | popN =>
      obtain _ | (n | name) := operand
      · cases h
      · cases h; exact .literal rfl
      · cases h
    | jump condition =>
      obtain _ | (n | name) := operand
      · cases h
      · cases h
      · cases h; exact .jump
    | call =>
      obtain _ | (n | name) := operand
      · cases h
      · cases h
      · cases h; exact .call

theorem Instruction.HasForm.width_eq {i : Instruction} {form : Form} (h : i.HasForm form) :
    form.width = i.width := by
  cases h <;> rfl

theorem FlatBlock.hasForms {b : FlatBlock} {forms : List Form} (h : b.forms = .ok forms) :
    List.Forall₂ Instruction.HasForm b.instructions forms :=
  (forall₂_of_mapM h).imp fun _ _ hform =>
    Instruction.hasForm_of_form? (FlatBlock.form?_of_form hform)

theorem codeWidth_eq {is : List Instruction} {forms : List Form}
    (h : List.Forall₂ Instruction.HasForm is forms) : Layout.codeWidth forms = wordCount is := by
  induction h with
  | nil => rfl
  | cons hform _ ih => rw [Layout.codeWidth, wordCount_cons, hform.width_eq, ih]

theorem codeWidths_eq {blocks : List FlatBlock} {forms : List (List Form)}
    (h : List.Forall₂ (fun b forms => b.forms = .ok forms) blocks forms) :
    forms.map Layout.codeWidth = blocks.map fun b => wordCount b.instructions := by
  induction h with
  | nil => rfl
  | cons hforms _ ih =>
    rw [List.map_cons, List.map_cons, codeWidth_eq (FlatBlock.hasForms hforms), ih]

theorem FlatBlock.hasForms_flatten {blocks : List FlatBlock} {forms : List (List Form)}
    (h : List.Forall₂ (fun b forms => b.forms = .ok forms) blocks forms) :
    List.Forall₂ Instruction.HasForm (blocks.flatMap FlatBlock.instructions) forms.flatten := by
  induction h with
  | nil => exact .nil
  | cons hforms _ ih => exact List.rel_append (FlatBlock.hasForms hforms) ih

/-! ## Looking up in tables that were filled in order -/

namespace Dictionary

variable {κ ν : Type} [DecidableEq κ]

def lastValue? (key : κ) (entries : List (κ × ν)) : Option ν :=
  (entries.reverse.find? fun entry => entry.1 = key).map Prod.snd

theorem lastValue?_append (key : κ) (entries entries' : List (κ × ν)) :
    lastValue? key (entries ++ entries') =
      (lastValue? key entries').or (lastValue? key entries) := by
  simp [lastValue?, Option.map_or]

theorem lastValue?_cons (key : κ) (entry : κ × ν) (entries : List (κ × ν)) :
    lastValue? key (entry :: entries) =
      (lastValue? key entries).or (if entry.1 = key then some entry.2 else none) := by
  rw [← List.singleton_append, lastValue?_append]
  by_cases h : entry.1 = key <;> simp [lastValue?, h]

/-- Of entries that are inserted one after the other, the last one with a key counts. -/
theorem get?_foldl_insert (entries : List (κ × ν)) (d : Dictionary κ ν) (key : κ) :
    (entries.foldl (fun d (key, value) => d.insert key value) d).get? key =
      (lastValue? key entries).or (d.get? key) := by
  induction entries generalizing d with
  | nil => rfl
  | cons entry entries ih =>
    rw [List.foldl_cons, ih, get?_insert, lastValue?_cons, Option.or_assoc]
    by_cases h : entry.1 = key <;> simp [h]

/-- Of entries that do not replace earlier ones, the first one with a key counts. -/
theorem get?_foldl_insertNew (entries : List (κ × ν)) (d : Dictionary κ ν) (key : κ) :
    (entries.foldl (fun d (key, value) => d.insertNew key value) d).get? key =
      (d.get? key).or ((entries.find? fun entry => entry.1 = key).map Prod.snd) := by
  induction entries generalizing d with
  | nil => simp
  | cons entry entries ih =>
    rw [List.foldl_cons, ih, get?_insertNew, Option.or_assoc]
    by_cases h : entry.1 = key <;> simp [h]

end Dictionary

namespace Layout

theorem length_tile (offset : Nat) (widths : List Nat) :
    (tile offset widths).length = widths.length := by
  induction widths generalizing offset with
  | nil => rfl
  | cons width widths ih => rw [tile, List.length_cons, List.length_cons, ih]

/-- There is a range for every block. -/
theorem length_ranges {blocks : List FlatBlock} {forms : List (List Form)}
    (h : List.Forall₂ (fun b forms => b.forms = .ok forms) blocks forms) :
    (tile 0 (forms.map codeWidth)).length = blocks.length := by
  rw [length_tile, List.length_map, h.length_eq]

theorem tile_blocks (blocks : List FlatBlock) (offset : Nat) :
    tile offset (blocks.map fun b => wordCount b.instructions) =
      (List.range blocks.length).map fun i =>
        ⟨offset + blockStart blocks i, offset + blockStart blocks (i + 1)⟩ := by
  induction blocks generalizing offset with
  | nil => rfl
  | cons b blocks ih =>
    rw [List.map_cons, tile, ih, List.length_cons, List.range_succ_eq_map, List.map_cons,
      List.map_map]
    simp [Function.comp_def, blockStart, Nat.add_assoc]

theorem lastValue?_markOffsets {is : List Instruction} {forms : List Form}
    (h : List.Forall₂ Instruction.HasForm is forms) (offset : Nat) (name : String) :
    Dictionary.lastValue? name (markOffsets offset forms) =
      (lastMark? name is).map fun k => offset + wordCount (is.take k) := by
  induction h generalizing offset with
  | nil => rfl
  | @cons i form is forms hform _ ih =>
    -- Behind the first instruction the offset has moved by its width and places by one.
    have hshift : ∀ width, i.width = width →
        (fun k => offset + width + wordCount (is.take k)) =
          (fun k => offset + wordCount ((i :: is).take k)) ∘ (· + 1) := by
      rintro _ rfl
      funext k
      simp [Nat.add_assoc]
    cases hform with
    | @mark operand position marked hmarks =>
      have hmark : (if marked = name then some offset else none) =
          (if (Instruction.mk .mark operand position).marks name then some 1 else none).map
            fun k => offset + wordCount ((Instruction.mk .mark operand position :: is).take k) := by
        rw [hmarks]
        by_cases hname : marked = name <;> simp [hname, Instruction.width, Mnemonic.opcode?]
      rw [markOffsets, Dictionary.lastValue?_cons, ih, lastMark?, Option.map_or, hmark,
        Option.map_map, ← hshift 0 rfl, Nat.add_zero]
    | plain _ | literal _ | jump | call =>
      rw [markOffsets, ih, lastMark?, Option.map_or, Option.map_map, ← hshift _ rfl]
      · simp [Instruction.marks]
        rfl
      · nofun

theorem lastValue?_filed (index : Nat) (marks : List (String × Nat)) (i : Nat) (name : String) :
    Dictionary.lastValue? (i, name) (marks.map fun (name, offset) => ((index, name), offset)) =
      if index = i then Dictionary.lastValue? name marks else none := by
  induction marks with
  | nil => simp [Dictionary.lastValue?]
  | cons mark marks ih =>
    rw [List.map_cons, Dictionary.lastValue?_cons, ih, Dictionary.lastValue?_cons]
    by_cases hindex : index = i <;> simp [hindex]

/-- The marks of all blocks, the first of which has the index `first`. -/
theorem lastValue?_flatten (pairs : List (Range × List Form)) (first i : Nat) (name : String) :
    Dictionary.lastValue? (i, name) (pairs.mapIdx fun index (range, forms) =>
        (markOffsets range.start forms).map fun (name, offset) =>
          ((first + index, name), offset)).flatten =
      if first ≤ i then
        pairs[i - first]?.bind fun (range, forms) =>
          Dictionary.lastValue? name (markOffsets range.start forms)
      else none := by
  induction pairs generalizing first with
  | nil => simp [Dictionary.lastValue?]
  | cons pair pairs ih =>
    have hrest := ih (first + 1)
    simp only [Nat.add_right_comm first 1] at hrest
    simp only [List.mapIdx_cons, List.flatten_cons, Dictionary.lastValue?_append,
      lastValue?_filed, Nat.add_zero, ← Nat.add_assoc]
    rw [hrest]
    -- The block that is looked for lies in front of the pairs, is the first one, or behind it.
    obtain hlt | rfl | hgt := Nat.lt_trichotomy i first
    · rw [if_neg (by omega), if_neg (by omega), if_neg (by omega), Option.none_or]
    · rw [if_neg (by omega), if_pos rfl, if_pos (Nat.le_refl i), Nat.sub_self]
      rfl
    · have hnext : i - first = i - (first + 1) + 1 := by omega
      rw [if_pos (by omega), if_neg (by omega), if_pos (by omega), hnext, List.getElem?_cons_succ,
        Option.or_none]

theorem get?_collectMarks (ranges : List Range) (forms : List (List Form)) (i : Nat)
    (name : String) :
    (collectMarks ranges forms).get? (i, name) =
      (ranges.zip forms)[i]?.bind fun (range, forms) =>
        Dictionary.lastValue? name (markOffsets range.start forms) := by
  have h := lastValue?_flatten (ranges.zip forms) 0 i name
  simp only [Nat.zero_add, Nat.zero_le, if_true, Nat.sub_zero] at h
  rw [collectMarks, Dictionary.get?_foldl_insert, h, Dictionary.get?_empty, Option.or_none]

theorem find?_mapIdx (blocks : List FlatBlock) (slot : Nat → Nat) (label : String) :
    ((blocks.mapIdx fun index b => (b.label, slot index)).find? fun entry =>
        entry.1 = label).map Prod.snd =
      (blocks.findIdx? fun b => b.label == label).map slot := by
  induction blocks generalizing slot with
  | nil => rfl
  | cons b blocks ih =>
    have hrest := ih fun index => slot (index + 1)
    rw [List.mapIdx_cons, List.find?_cons, List.findIdx?_cons]
    by_cases hlabel : b.label = label
    · simp [hlabel]
    · simp only [hlabel, decide_false, beq_eq_false_iff_ne.2 hlabel]
      rw [hrest]
      simp [Function.comp_def]

theorem get?_collectLabels (blocks : List FlatBlock) (slot : Nat → Nat) (label : String) :
    (collectLabels blocks ((List.range blocks.length).map slot)).get? label =
      (blocks.findIdx? fun b => b.label == label).map slot := by
  have hpairs : (blocks.map FlatBlock.label).zip ((List.range blocks.length).map slot) =
      blocks.mapIdx fun index b => (b.label, slot index) := by
    rw [List.zip_map, List.mapIdx_eq_zipIdx_map, List.zipIdx_eq_zip_range', List.range_eq_range']
    rfl
  rw [collectLabels, hpairs, Dictionary.get?_foldl_insertNew, Dictionary.get?_empty, Option.none_or,
    find?_mapIdx]

/-! ## Seats in the table -/

/-- The table slot of the block with source index `i` when the entry has source index `entry`. -/
def slotOf (entry i : Nat) : Nat :=
  if i = entry then 0 else if i < entry then i + 1 else i

theorem table_getElem? {α : Type} {ranges : List α} {entry i : Nat} (hentry : entry < ranges.length)
    (hi : i < ranges.length) :
    (ranges[entry]?.toList ++ ranges.eraseIdx entry)[slotOf entry i]? = ranges[i]? := by
  rw [List.getElem?_eq_getElem hentry, Option.toList_some, List.singleton_append]
  simp only [slotOf]
  by_cases heq : i = entry
  · subst heq
    rw [if_pos rfl, List.getElem?_cons_zero, List.getElem?_eq_getElem hi]
  · rw [if_neg heq]
    by_cases hlt : i < entry
    -- A range in front of the entry moves up by one, and one behind it stays where it is.
    · rw [if_pos hlt, List.getElem?_cons_succ, List.getElem?_eraseIdx_of_lt hlt]
    · rw [if_neg hlt]
      obtain ⟨k, rfl⟩ : ∃ k, i = k + 1 := ⟨i - 1, by omega⟩
      rw [List.getElem?_cons_succ, List.getElem?_eraseIdx_of_ge (by omega)]

theorem tableOrder_eq {count entry : Nat} (h : entry < count) :
    tableOrder count entry =
      (List.range count)[entry]?.toList ++ (List.range count).eraseIdx entry := by
  have hentry : (List.range count)[entry]? = some entry := List.getElem?_range h
  have hplace : (List.range count).idxOf entry = entry := by
    obtain ⟨hlt, hget⟩ := List.getElem?_eq_some_iff.1 hentry
    have hindex := List.nodup_range.idxOf_getElem entry hlt
    rwa [hget] at hindex
  rw [tableOrder, ← List.nodup_range.erase_eq_filter, List.erase_eq_eraseIdx_of_idxOf hplace,
    hentry]
  rfl

theorem nodup_tableOrder (count entry : Nat) : (tableOrder count entry).Nodup := by
  rw [tableOrder, List.nodup_cons]
  exact ⟨by simp, List.nodup_range.filter _⟩

theorem getElem?_tableOrder {count entry i : Nat} (hentry : entry < count) (hi : i < count) :
    (tableOrder count entry)[slotOf entry i]? = some i := by
  rw [tableOrder_eq hentry, table_getElem? (by simpa using hentry) (by simpa using hi),
    List.getElem?_range hi]

/-- The slots of source indices, noted one after the other. -/
def noteSlots (slots : List Nat) (order : List (Nat × Nat)) : List Nat :=
  order.foldl (fun slots next => slots.set next.1 next.2) slots

/-- Table and slots are filled independently of each other. -/
theorem foldl_seat (ranges : List Range) (order : List (Nat × Nat)) (table : List Range)
    (slots : List Nat) :
    order.foldl (seat ranges) (table, slots) =
      (table ++ (order.map Prod.fst).flatMap (fun i => ranges[i]?.toList),
        noteSlots slots order) := by
  induction order generalizing table slots with
  | nil => simp [noteSlots]
  | cons next order ih =>
    rw [List.foldl_cons, seat, ih, List.map_cons, List.flatMap_cons, List.append_assoc]
    rfl

theorem flatMap_getElem? {α : Type} (as : List α) (start count : Nat) :
    (List.range' start count).flatMap (fun i => as[i]?.toList) = (as.drop start).take count := by
  induction count generalizing start with
  | zero => simp
  | succ count ih =>
    rw [List.range'_succ, List.flatMap_cons, ih]
    cases hstart : as[start]? with
    | none =>
      have hout : as.length ≤ start := List.getElem?_eq_none_iff.1 hstart
      rw [List.drop_eq_nil_of_le hout, List.drop_eq_nil_of_le (Nat.le_succ_of_le hout)]
      simp
    | some a =>
      obtain ⟨hlt, rfl⟩ := List.getElem?_eq_some_iff.1 hstart
      rw [List.drop_eq_getElem_cons hlt]
      rfl

theorem flatMap_tableOrder {ranges : List Range} {entry : Nat} (h : entry < ranges.length) :
    (tableOrder ranges.length entry).flatMap (fun i => ranges[i]?.toList) =
      ranges[entry]?.toList ++ ranges.eraseIdx entry := by
  have hfront : (List.range ranges.length).take entry = List.range' 0 entry := by
    rw [List.take_range, Nat.min_eq_left (Nat.le_of_lt h), List.range_eq_range']
  have hback : (List.range ranges.length).drop (entry + 1) =
      List.range' (entry + 1) (ranges.length - (entry + 1)) := by
    rw [List.range_eq_range', List.drop_range', Nat.mul_one, Nat.zero_add]
  have hrest : (ranges.drop (entry + 1)).take (ranges.length - (entry + 1)) =
      ranges.drop (entry + 1) := List.take_of_length_le (by simp)
  rw [tableOrder_eq h, List.getElem?_range h, List.flatMap_append, List.eraseIdx_eq_take_drop_succ,
    List.eraseIdx_eq_take_drop_succ, List.flatMap_append, hfront, hback, flatMap_getElem?,
    flatMap_getElem?, List.drop_zero, hrest]
  simp

theorem getElem?_noteSlots_of_not_mem {order : List Nat} {i : Nat} (hi : i ∉ order) (first : Nat)
    (slots : List Nat) : (noteSlots slots (order.zipIdx first))[i]? = slots[i]? := by
  induction order generalizing first slots with
  | nil => rfl
  | cons index order ih =>
    rw [List.mem_cons, not_or] at hi
    have hrest := ih hi.2 (first + 1) (slots.set index first)
    rwa [List.getElem?_set_ne (Ne.symm hi.1)] at hrest

/-- A slot stays as it was noted when no source index comes twice. -/
theorem getElem?_noteSlots {order : List Nat} (hnodup : order.Nodup) {i k : Nat}
    (hk : order[k]? = some i) (first : Nat) {slots : List Nat} (hi : i < slots.length) :
    (noteSlots slots (order.zipIdx first))[i]? = some (first + k) := by
  induction order generalizing first slots k with
  | nil => cases hk
  | cons index order ih =>
    rw [List.nodup_cons] at hnodup
    cases k with
    | zero =>
      cases hk
      have hrest := getElem?_noteSlots_of_not_mem hnodup.1 (first + 1) (slots.set i first)
      rwa [List.getElem?_set_self hi] at hrest
    | succ k =>
      have hi' : i < (slots.set index first).length := by rwa [List.length_set]
      have hrest := ih hnodup.2 hk (first + 1) hi'
      rwa [Nat.add_assoc, Nat.add_comm 1] at hrest

theorem length_noteSlots (slots : List Nat) (order : List (Nat × Nat)) :
    (noteSlots slots order).length = slots.length := by
  induction order generalizing slots with
  | nil => rfl
  | cons next order ih => exact (ih _).trans List.length_set

/-- The entry block is first in the table and the others follow in source order, each in its slot. -/
theorem seats_eq {ranges : List Range} {entry : Nat} (h : entry < ranges.length) :
    seats ranges entry = (ranges[entry]?.toList ++ ranges.eraseIdx entry,
      (List.range ranges.length).map (slotOf entry)) := by
  rw [seats, foldl_seat, List.zipIdx_map_fst, List.nil_append, flatMap_tableOrder h]
  congr 1
  refine List.ext_getElem? fun i => ?_
  by_cases hi : i < ranges.length
  · rw [getElem?_noteSlots (nodup_tableOrder _ _) (getElem?_tableOrder h hi) 0 (by simpa using hi)]
    simp [hi]
  · rw [List.getElem?_eq_none, List.getElem?_eq_none]
    · simpa using hi
    · rw [length_noteSlots]
      simpa using hi

/-! ## What a layout says -/

/-- The tables of a layout, for the block with source index `entry` as the entry block. -/
structure Places (layout : Layout) (blocks : List FlatBlock) (entry : Nat) : Prop where
  entry_lt : entry < blocks.length
  ranges : layout.ranges = (List.range blocks.length).map (blockRange blocks)
  slots : layout.slots = (List.range blocks.length).map (slotOf entry)
  table : ∀ i < blocks.length, layout.table[slotOf entry i]? = some (blockRange blocks i)
  table_mem : ∀ r ∈ layout.table, ∃ i < blocks.length, r = blockRange blocks i
  labels : ∀ label,
    layout.slot? label = (blocks.findIdx? fun b => b.label == label).map (slotOf entry)
  marks : ∀ i b name, blocks[i]? = some b →
    layout.mark? i name = (lastMark? name b.instructions).map fun k =>
      blockStart blocks i + wordCount (b.instructions.take k)
  codeLength : layout.codeLength = blockStart blocks blocks.length

theorem ofBlocks_inv {blocks : List FlatBlock} {entry : String} {layout : Layout}
    (h : ofBlocks blocks entry = .ok layout) :
    ∃ forms index, List.Forall₂ (fun b forms => b.forms = .ok forms) blocks forms ∧
      (blocks.findIdx? fun b => b.label == entry) = some index ∧
      layout =
        let ranges := tile 0 (forms.map codeWidth)
        { ranges
          table := ranges[index]?.toList ++ ranges.eraseIdx index
          slots := (List.range blocks.length).map (slotOf index)
          labels := collectLabels blocks ((List.range blocks.length).map (slotOf index))
          marks := collectMarks ranges forms
          codeLength := codeWidth forms.flatten } := by
  simp only [ofBlocks] at h
  obtain ⟨forms, hforms, h⟩ := bind_eq_ok h
  cases hindex : blocks.findIdx? fun b => b.label == entry with
  | none => simp only [hindex] at h; cases h
  | some index =>
    have hforms := forall₂_of_mapM hforms
    have hlength := length_ranges hforms
    have hentry : index < blocks.length := (List.findIdx?_eq_some_iff_getElem.1 hindex).1
    simp only [hindex, seats_eq (hlength.symm ▸ hentry), hlength] at h
    cases h
    exact ⟨forms, index, hforms, rfl, rfl⟩

theorem ofBlocks_places {blocks : List FlatBlock} {entry : String} {layout : Layout}
    (h : ofBlocks blocks entry = .ok layout) :
    ∃ index, (blocks.findIdx? fun b => b.label == entry) = some index ∧
      layout.Places blocks index := by
  obtain ⟨forms, index, hforms, hindex, rfl⟩ := ofBlocks_inv h
  have hlt : index < blocks.length := (List.findIdx?_eq_some_iff_getElem.1 hindex).1
  have hranges : tile 0 (forms.map codeWidth) =
      (List.range blocks.length).map (blockRange blocks) := by
    rw [codeWidths_eq hforms, tile_blocks]
    simp [blockRange]
  have hlength := length_ranges hforms
  -- Every other table is filled from the ranges.
  have hget : ∀ i < blocks.length,
      (tile 0 (forms.map codeWidth))[i]? = some (blockRange blocks i) := by
    intro i hi
    simp [hranges, hi]
  refine ⟨index, hindex, hlt, hranges, rfl, ?_, ?_, get?_collectLabels blocks (slotOf index), ?_,
    ?_⟩
  · intro i hi
    rw [table_getElem? (by omega) (by omega), hget i hi]
  · intro r hr
    have hmem : r ∈ tile 0 (forms.map codeWidth) := by
      obtain hfront | hrest := List.mem_append.1 hr
      · exact List.mem_of_getElem? (Option.mem_toList.1 hfront)
      · exact List.mem_of_mem_eraseIdx hrest
    rw [hranges] at hmem
    obtain ⟨i, hi, rfl⟩ := List.mem_map.1 hmem
    exact ⟨i, List.mem_range.1 hi, rfl⟩
  · intro i b name hb
    obtain ⟨hi, rfl⟩ := List.getElem?_eq_some_iff.1 hb
    have hlen : i < forms.length := by rw [← hforms.length_eq]; exact hi
    have hblock := hforms.get hi hlen
    have hzip : ((tile 0 (forms.map codeWidth)).zip forms)[i]? =
        some (blockRange blocks i, forms.get ⟨i, hlen⟩) := by
      rw [List.getElem?_zip_eq_some]
      exact ⟨hget i hi, List.getElem?_eq_getElem hlen⟩
    change (collectMarks _ forms).get? (i, name) = _
    rw [get?_collectMarks, hzip]
    exact lastValue?_markOffsets (FlatBlock.hasForms hblock) _ name
  · simp only
    rw [codeWidth_eq (FlatBlock.hasForms_flatten hforms), blockStart, List.take_length]

end Layout

end BlockMachine
