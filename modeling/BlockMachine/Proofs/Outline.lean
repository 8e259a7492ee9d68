import BlockMachine.Proofs.ReadingGrammar
import Mathlib.Data.List.Basic

/-! # Blocks in one pass

Reading builds a forest and flattening takes it apart again.  The same blocks come out of one pass
over the tokens that never builds a tree: it writes down labels and instructions as they come, and
keeps a stack of the blocks that are open to know which of them an instruction belongs to.

* `Outline`, `Outline.feed` — what is written down, and what a token adds to it;
* `Outline.blocks` — the blocks that an outline describes, with `blocks_enter` and `blocks_place` for
  what a label and an instruction mean for them;
* `DerivesBlock.outline`, `DerivesItems.outline` — derived tokens add their blocks behind those that
  are there, and their own instructions to the innermost open block;
* `flat_blocks_of_one_pass` — the blocks that are read are the blocks of the outline.
-/

namespace BlockMachine

open CodeBlock

/-! ## One pass over the tokens -/

/-- The operand that a token is. -/
def TokenKind.value? : TokenKind → Option Value
  | number text => (Numeral.signed? text.toList >>= fit?).map .integer
  | identifier name => some (.label name)
  | keyword _ | colon | eof => none

/-- What has been written down about tokens. -/
structure Outline where
  /-- the label of every block and its line, in the order of the text -/
  opened : List (String × Nat)
  /-- every instruction in the order of the text, behind the number of the innermost block that was
  open around it -/
  placed : List (Option Nat × Instruction)
  /-- the number and the label of each block that is open, the innermost first -/
  stack : List (Nat × String)
  /-- a keyword that has something behind it: its operand, or the name of the block that ends -/
  due : Option (Mnemonic × Position)

/-- A block with more instructions at its end. -/
def FlatBlock.extend (b : FlatBlock) (is : List Instruction) : FlatBlock :=
  { b with instructions := b.instructions ++ is }

theorem FlatBlock.extend_nil (b : FlatBlock) : b.extend [] = b := by
  rw [extend, List.append_nil]

theorem FlatBlock.extend_extend (b : FlatBlock) (is is' : List Instruction) :
    (b.extend is).extend is' = b.extend (is ++ is') := by
  simp only [extend, List.append_assoc]

theorem modify_append_left {α : Type} {l : List α} {k : Nat} (hk : k < l.length) (l' : List α)
    (f : α → α) : (l ++ l').modify k f = l.modify k f ++ l' := by
  induction l generalizing k with
  | nil => cases hk
  | cons a l ih =>
    cases k with
    | zero => rfl
    | succ k =>
      rw [List.cons_append, List.modify_succ_cons, ih (Nat.lt_of_succ_lt_succ hk)]
      rfl

theorem modify_concat {α : Type} (l : List α) (a : α) (f : α → α) :
    (l ++ [a]).modify l.length f = l ++ [f a] := by
  induction l with
  | nil => rfl
  | cons b l ih =>
    rw [List.cons_append, List.length_cons, List.modify_succ_cons, ih]
    rfl

namespace Outline

def empty : Outline :=
  ⟨[], [], [], none⟩

def enter (o : Outline) (label : String) (line : Nat) : Outline :=
  { o with opened := o.opened ++ [(label, line)], stack := (o.opened.length, label) :: o.stack }

def place (o : Outline) (i : Instruction) : Outline :=
  { o with placed := o.placed ++ [(o.stack.head?.map Prod.fst, i)] }

def leave (o : Outline) : Outline :=
  { o with stack := o.stack.tail }

def feed (o : Outline) (t : Token) : Outline :=
  match o.due with
  | some (.endBlock, _) => { o.leave with due := none }
  | some (m, p) => { o.place ⟨m, t.kind.value?, p⟩ with due := none }
  | none =>
    match t.kind with
    | .identifier label => o.enter label t.position.line
    | .keyword m =>
      if m = .endBlock ∨ m.operand ≠ .nothing then { o with due := some (m, t.position) }
      else o.place ⟨m, none, t.position⟩
    | .number _ | .colon | .eof => o

def scan (o : Outline) (ts : List Token) : Outline :=
  ts.foldl feed o

/-- The outline of tokens. -/
def ofTokens (ts : List Token) : Outline :=
  empty.scan ts

theorem scan_append (o : Outline) (ts ts' : List Token) :
    o.scan (ts ++ ts') = (o.scan ts).scan ts' :=
  List.foldl_append

theorem scan_cons (o : Outline) (t : Token) (ts : List Token) :
    o.scan (t :: ts) = (o.feed t).scan ts := rfl

theorem ofTokens_append (ts ts' : List Token) : ofTokens (ts ++ ts') = (ofTokens ts).scan ts' :=
  scan_append empty ts ts'

/-- The label of the innermost block that is open. -/
def innermost? (o : Outline) : Option String :=
  o.stack.head?.map Prod.snd

/-! ## The blocks of an outline -/

/-- The instructions whose innermost open block has the number `k`. -/
def ownedBy (o : Outline) (k : Nat) : List Instruction :=
  (o.placed.filter fun entry => entry.1 == some k).map Prod.snd

/-- The blocks that have been opened, each with its own instructions. -/
def blocks (o : Outline) : List FlatBlock :=
  o.opened.mapIdx fun k head => ⟨head.1, o.ownedBy k, head.2⟩

/-- Every number stands for a block that has been opened. -/
structure Owned (o : Outline) : Prop where
  placed : ∀ entry ∈ o.placed, ∃ k < o.opened.length, entry.1 = some k
  stack : ∀ entry ∈ o.stack, entry.1 < o.opened.length

theorem length_blocks (o : Outline) : o.blocks.length = o.opened.length :=
  List.length_mapIdx

theorem owned_empty : empty.Owned :=
  ⟨fun _ h => absurd h List.not_mem_nil, fun _ h => absurd h List.not_mem_nil⟩

variable {o : Outline}

theorem Owned.enter (h : o.Owned) (label : String) (line : Nat) : (o.enter label line).Owned := by
  have hlength : (o.enter label line).opened.length = o.opened.length + 1 := List.length_append
  constructor
  · intro entry hentry
    obtain ⟨k, hk, howner⟩ := h.placed entry hentry
    exact ⟨k, by omega, howner⟩
  · intro entry hentry
    obtain rfl | hentry := List.mem_cons.1 hentry
    · rw [hlength]
      exact Nat.lt_succ_self _
    · have := h.stack entry hentry
      omega

theorem Owned.place {k : Nat} {label : String} {outer : List (Nat × String)} (h : o.Owned)
    (hstack : o.stack = (k, label) :: outer) (i : Instruction) : (o.place i).Owned := by
  refine ⟨?_, h.stack⟩
  intro entry hentry
  obtain hentry | hentry := List.mem_append.1 hentry
  · exact h.placed entry hentry
  · obtain rfl := List.mem_singleton.1 hentry
    exact ⟨k, h.stack (k, label) (by rw [hstack]; exact List.mem_cons_self), by rw [hstack]; rfl⟩

theorem Owned.leave (h : o.Owned) : o.leave.Owned :=
  ⟨h.placed, fun entry hentry => h.stack entry (List.mem_of_mem_tail hentry)⟩

/-- A label starts a block of its own, which has no instructions yet. -/
theorem blocks_enter (h : o.Owned) (label : String) (line : Nat) :
    (o.enter label line).blocks = o.blocks ++ [⟨label, [], line⟩] := by
  have hnone : o.ownedBy o.opened.length = [] := by
    rw [ownedBy, List.map_eq_nil_iff, List.filter_eq_nil_iff]
    intro entry hentry
    obtain ⟨k, hk, howner⟩ := h.placed entry hentry
    simp [howner, Nat.ne_of_lt hk]
  have howned : ∀ k, (o.enter label line).ownedBy k = o.ownedBy k := fun _ => rfl
  simp only [blocks, howned]
  rw [enter, List.mapIdx_concat, hnone]

/-- An instruction goes to the end of the innermost open block. -/
theorem blocks_place {k : Nat} {label : String} {outer : List (Nat × String)}
    (hstack : o.stack = (k, label) :: outer) (i : Instruction) :
    (o.place i).blocks = o.blocks.modify k (·.extend [i]) := by
  have howned : ∀ j, (o.place i).ownedBy j = o.ownedBy j ++ if k = j then [i] else [] := by
    intro j
    simp only [ownedBy, place, hstack, List.head?_cons, Option.map_some, List.filter_append,
      List.map_append]
    by_cases hj : k = j <;> simp [hj]
  apply List.ext_getElem?
  intro j
  rw [List.getElem?_modify, blocks, blocks, List.getElem?_mapIdx, List.getElem?_mapIdx]
  show Option.map _ o.opened[j]? = _
  cases o.opened[j]? with
  | none => simp
  | some head =>
    simp only [Option.map_some, howned]
    by_cases hj : k = j <;> simp [hj, FlatBlock.extend]

end Outline

/-! ## What tokens add to an outline -/

/-- The keyword of an instruction. -/
def Instruction.keyword (i : Instruction) : Token :=
  ⟨.keyword i.mnemonic, i.position⟩

/-- Whether a token is the keyword of an instruction. -/
def Token.startsInstruction (t : Token) : Bool :=
  match t.kind with
  | .keyword m => m != .endBlock
  | _ => false

namespace Outline

/-- Tokens have led from one outline to another between two items; `blocks` are its blocks then. -/
structure Gains (o : Outline) (ts : List Token) (blocks : List FlatBlock) (o' : Outline) : Prop where
  due : o'.due = none
  stack : o'.stack = o.stack
  owned : o'.Owned
  blocks : o'.blocks = blocks
  /-- every keyword of an instruction has been written down, and nothing else -/
  keywords : o'.placed.map (fun entry => entry.2.keyword) =
    o.placed.map (fun entry => entry.2.keyword) ++ ts.filter Token.startsInstruction

variable {o mid o' : Outline} {ts ts' : List Token}

theorem Gains.trans {bs bs' : List FlatBlock} (h : Gains o ts bs mid) (h' : Gains mid ts' bs' o') :
    Gains o (ts ++ ts') bs' o' where
  due := h'.due
  stack := h'.stack.trans h.stack
  owned := h'.owned
  blocks := h'.blocks
  keywords := by rw [h'.keywords, h.keywords, List.filter_append, List.append_assoc]

theorem feed_label (h : o.due = none) (label : String) (p : Position) :
    o.feed ⟨.identifier label, p⟩ = o.enter label p.line := by
  simp only [feed, h]

theorem feed_keyword {m : Mnemonic} (h : o.due = none) (hm : m = .endBlock ∨ m.operand ≠ .nothing)
    (p : Position) : o.feed ⟨.keyword m, p⟩ = { o with due := some (m, p) } := by
  simp only [feed, h, if_pos hm]

theorem scan_open (h : o.due = none) (label : String) (p q : Position) (ts : List Token) :
    o.scan (⟨.identifier label, p⟩ :: ⟨.colon, q⟩ :: ts) = (o.enter label p.line).scan ts := by
  have hdue : (o.enter label p.line).due = none := h
  rw [scan_cons, feed_label h, scan_cons]
  simp only [feed, hdue]

theorem scan_end (h : o.due = none) (label : String) (r s : Position) :
    o.scan [⟨.keyword .endBlock, r⟩, ⟨.identifier label, s⟩] = o.leave := by
  obtain ⟨opened, placed, stack, due⟩ := o
  obtain rfl : due = none := h
  rfl

end Outline

open Outline

theorem DerivesInstruction.scan {ts : List Token} {i : Instruction} (h : DerivesInstruction ts i)
    {o : Outline} (hdue : o.due = none) : o.scan ts = o.place i := by
  obtain ⟨opened, placed, stack, due⟩ := o
  obtain rfl : due = none := hdue
  cases h with
  | plain hm =>
    obtain rfl | ⟨action, rfl⟩ := hm
    · rfl
    · rfl
  | @number m p q text n hm hn =>
    have hvalue : (TokenKind.number text).value? = some (.integer n) := by
      rw [TokenKind.value?, number_eq_some.2 hn, Option.map_some]
    obtain rfl | rfl := hm
    · simp [Outline.scan, feed, Mnemonic.operand, Opcode.operand?, hvalue, place]
    · simp [Outline.scan, feed, Mnemonic.operand, Opcode.operand?, hvalue, place]
  | @name m p q name hm =>
    obtain rfl | ⟨condition, rfl⟩ | rfl := hm
    · rfl
    · rfl
    · rfl

theorem DerivesInstruction.keyword {ts : List Token} {i : Instruction}
    (h : DerivesInstruction ts i) : ts.filter Token.startsInstruction = [i.keyword] := by
  cases h with
  | plain hm =>
    obtain rfl | ⟨action, rfl⟩ := hm
    · rfl
    · rfl
  | number hm hn =>
    obtain rfl | rfl := hm
    · rfl
    · rfl
  | name hm =>
    obtain rfl | ⟨condition, rfl⟩ | rfl := hm
    · rfl
    · rfl
    · rfl

theorem DerivesInstruction.outline {ts : List Token} {i : Instruction}
    (h : DerivesInstruction ts i) {o : Outline} (hdue : o.due = none) (ho : o.Owned) {k : Nat}
    {label : String} {outer : List (Nat × String)} (hstack : o.stack = (k, label) :: outer) :
    Gains o ts (o.blocks.modify k (·.extend [i])) (o.scan ts) := by
  rw [h.scan hdue]
  refine ⟨hdue, rfl, ho.place hstack i, blocks_place hstack i, ?_⟩
  rw [place, List.map_append, h.keyword]
  rfl

mutual

/-- The blocks of a derived block come behind all others. -/
theorem DerivesBlock.outline {ts : List Token} {b : CodeBlock} (h : DerivesBlock ts b)
    {o : Outline} (hdue : o.due = none) (ho : o.Owned) :
    Gains o ts (o.blocks ++ b.flatten) (o.scan ts) := by
  match h with
  | @DerivesBlock.block label p q r s items is bs hitems =>
    have hitems := hitems.outline (o := o.enter label p.line) hdue (ho.enter label p.line) rfl
    rw [blocks_enter ho, ← length_blocks, modify_concat] at hitems
    rw [scan_open hdue, scan_append, scan_end hitems.due]
    refine ⟨hitems.due, ?_, hitems.owned.leave, ?_, ?_⟩
    · rw [leave, hitems.stack]
      rfl
    · show Outline.blocks (Outline.scan _ items) = _
      rw [hitems.blocks, List.append_assoc, flatten]
      rfl
    · show (Outline.scan _ items).placed.map _ = _
      rw [hitems.keywords]
      simp [List.filter_append, Token.startsInstruction, enter]

/-- The instructions between the brackets of a block go to that block, wherever nested blocks stand
among them. -/
theorem DerivesItems.outline {ts : List Token} {is : List Instruction} {bs : List CodeBlock}
    (h : DerivesItems ts is bs) {o : Outline} (hdue : o.due = none) (ho : o.Owned) {k : Nat}
    {label : String} {outer : List (Nat × String)} (hstack : o.stack = (k, label) :: outer) :
    Gains o ts (o.blocks.modify k (·.extend is) ++ flattenAll bs) (o.scan ts) := by
  match h with
  | .nil =>
    have hsame : o.blocks.modify k (·.extend []) = o.blocks := by
      rw [show (fun b : FlatBlock => b.extend []) = id from funext FlatBlock.extend_nil,
        List.modify_id]
    rw [hsame, flattenAll, List.append_nil]
    exact ⟨hdue, rfl, ho, rfl, (List.append_nil _).symm⟩
  | @DerivesItems.instruction ts rest i is bs hi hrest =>
    have hfirst := hi.outline hdue ho hstack
    have hnext := hrest.outline hfirst.due hfirst.owned (hfirst.stack.trans hstack)
    have hboth : (·.extend is) ∘ (FlatBlock.extend · [i]) = (·.extend (i :: is)) :=
      funext fun b => b.extend_extend [i] is
    rw [hfirst.blocks, List.modify_modify_eq, hboth] at hnext
    rw [scan_append]
    exact hfirst.trans hnext
  | @DerivesItems.block ts rest nested is bs hb hrest =>
    have hfirst := hb.outline hdue ho
    have hnext := hrest.outline hfirst.due hfirst.owned (hfirst.stack.trans hstack)
    have hk : k < o.blocks.length := by
      rw [length_blocks]
      exact ho.stack (k, label) (by rw [hstack]; exact List.mem_cons_self)
    rw [hfirst.blocks, modify_append_left hk, List.append_assoc] at hnext
    rw [scan_append]
    exact hfirst.trans hnext

end

theorem DerivesForest.outline {ts : List Token} {bs : List CodeBlock} (h : DerivesForest ts bs)
    {o : Outline} (hdue : o.due = none) (ho : o.Owned) :
    Gains o ts (o.blocks ++ flattenAll bs) (o.scan ts) := by
  induction h generalizing o with
  | nil =>
    rw [flattenAll, List.append_nil]
    exact ⟨hdue, rfl, ho, rfl, (List.append_nil _).symm⟩
  | cons hb _ ih =>
    have hfirst := hb.outline hdue ho
    have hnext := ih hfirst.due hfirst.owned
    rw [hfirst.blocks, List.append_assoc] at hnext
    rw [scan_append]
    exact hfirst.trans hnext

/-! ## Every instruction has one place -/

/-- Entries with owners below `n`, owner by owner. -/
theorem perm_of_owners {α : Type} {n : Nat} {entries : List (Option Nat × α)}
    (h : ∀ entry ∈ entries, ∃ k < n, entry.1 = some k) :
    ((List.range n).flatMap fun k => entries.filter fun entry => entry.1 == some k).Perm
      entries := by
  induction n generalizing entries with
  | zero =>
    have hnil : entries = [] := by
      rw [List.eq_nil_iff_forall_not_mem]
      intro entry hentry
      obtain ⟨k, hk, _⟩ := h entry hentry
      cases hk
    rw [hnil]
    exact .refl _
  | succ n ih =>
    -- The entries of the last owner are taken out; the others are not changed by that.
    have hothers : ∀ k ∈ List.range n,
        (entries.filter fun entry => !(entry.1 == some n)).filter (fun entry => entry.1 == some k) =
          entries.filter fun entry => entry.1 == some k := by
      intro k hk
      rw [List.filter_filter]
      congr 1
      funext entry
      by_cases howner : entry.1 = some k
      · simp [howner, Nat.ne_of_lt (List.mem_range.1 hk)]
      · simp [howner]
    have hbelow : ∀ entry ∈ entries.filter fun entry => !(entry.1 == some n),
        ∃ k < n, entry.1 = some k := by
      intro entry hentry
      obtain ⟨hentry, hlast⟩ := List.mem_filter.1 hentry
      obtain ⟨k, hk, howner⟩ := h entry hentry
      have hne : k ≠ n := by
        rintro rfl
        simp [howner] at hlast
      exact ⟨k, by omega, howner⟩
    have hfront := ih hbelow
    rw [List.flatMap_congr hothers] at hfront
    rw [List.range_succ, List.flatMap_append, List.flatMap_singleton]
    exact (hfront.append_right _).trans
      (List.perm_append_comm.trans (List.filter_append_perm _ _))

theorem Outline.Owned.instructions_perm {o : Outline} (h : o.Owned) :
    (o.blocks.flatMap FlatBlock.instructions).Perm (o.placed.map Prod.snd) := by
  have hblocks : o.blocks.map FlatBlock.instructions =
      (List.range o.opened.length).map o.ownedBy := by
    apply List.ext_getElem?
    intro k
    rw [blocks, List.getElem?_map, List.getElem?_mapIdx, List.getElem?_map, Option.map_map]
    by_cases hk : k < o.opened.length
    · rw [List.getElem?_eq_getElem hk, List.getElem?_range hk]
      rfl
    · rw [List.getElem?_eq_none (by omega), List.getElem?_eq_none (by simpa using hk)]
      rfl
  rw [List.flatMap_def, hblocks, ← List.flatMap_def]
  show ((List.range o.opened.length).flatMap fun k =>
    (o.placed.filter fun entry => entry.1 == some k).map Prod.snd).Perm _
  rw [← List.map_flatMap]
  exact (perm_of_owners h.placed).map _

theorem flattenAll_of_readFlat {r : Reader} {flat : List FlatBlock}
    (h : r.readFlat.1 = .ok flat) :
    ∃ forest, r.readTree.1 = .ok forest ∧ flattenAll forest = flat := by
  change r.readTree.1.map flattenAll = .ok flat at h
  cases htree : r.readTree.1 with
  | error e =>
    rw [htree] at h
    cases h
  | ok forest =>
    rw [htree] at h
    exact ⟨forest, rfl, Except.ok.inj h⟩

/-- The blocks that are read, nesting discarded, are those that one pass over the tokens finds: as
many as labels, in their order, each with the instructions that it was the innermost open block
of.  These are all instructions that there are, and each is in one block. -/
theorem flat_blocks_of_one_pass (tokens : List Token) (flat : List FlatBlock)
    (h : (Reader.ofTokens tokens).readFlat.1 = .ok flat) :
    let front := tokens.takeWhile (·.kind != .eof)
    let o := Outline.ofTokens front
    flat = o.blocks ∧
      o.placed.map (fun entry => entry.2.keyword) = front.filter Token.startsInstruction ∧
      (flat.flatMap FlatBlock.instructions).Perm (o.placed.map Prod.snd) := by
  intro front o
  obtain ⟨forest, hforest, rfl⟩ := flattenAll_of_readFlat h
  have hgains : Gains .empty front (flattenAll forest) o :=
    (readTree_ofTokens.1 hforest).outline rfl owned_empty
  refine ⟨hgains.blocks.symm, hgains.keywords, ?_⟩
  rw [← hgains.blocks]
  exact hgains.owned.instructions_perm

/-- A block between two instructions of another one, and more tokens behind the end of the input. -/
theorem flat_blocks_of_one_pass_nested :
    let place (column : Nat) : Position := ⟨1, column⟩
    let tokens : List Token :=
      [⟨.identifier "main", place 1⟩, ⟨.colon, place 2⟩, ⟨.keyword (.op .push), place 3⟩,
        ⟨.number "7", place 4⟩, ⟨.identifier "inner", ⟨2, 1⟩⟩, ⟨.colon, place 6⟩,
        ⟨.keyword (.op .call), place 7⟩, ⟨.identifier "main", place 8⟩,
        ⟨.keyword .endBlock, place 9⟩, ⟨.identifier "inner", place 10⟩,
        ⟨.keyword (.op .ret), place 11⟩, ⟨.keyword .endBlock, place 12⟩,
        ⟨.identifier "main", place 13⟩, ⟨.eof, place 14⟩, ⟨.keyword (.op .ret), place 15⟩]
    let flat : List FlatBlock :=
      [⟨"main", [⟨.op .push, some (.integer 7), place 3⟩, ⟨.op .ret, none, place 11⟩], 1⟩,
        ⟨"inner", [⟨.op .call, some (.label "main"), place 7⟩], 2⟩]
    let front := tokens.takeWhile (·.kind != .eof)
    let o := Outline.ofTokens front
    (Reader.ofTokens tokens).readFlat.1 = .ok flat ∧ flat = o.blocks ∧
      o.placed.map (fun entry => entry.2.keyword) = front.filter Token.startsInstruction ∧
      (flat.flatMap FlatBlock.instructions).Perm (o.placed.map Prod.snd) := by
  intro place tokens flat front o
  have hread : (Reader.ofTokens tokens).readFlat.1 = .ok flat := rfl
  exact ⟨hread, flat_blocks_of_one_pass tokens flat hread⟩

end BlockMachine
