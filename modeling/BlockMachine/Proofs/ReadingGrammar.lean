import BlockMachine.Proofs.Grammar
import Mathlib.Data.List.Induction
import Mathlib.Data.List.TakeWhile

/-! # Reading follows the grammar

The reader takes one token at a time and keeps the blocks that are open; the grammar knows whole
blocks only.  Both directions go through the readings in between:

* `Reading.Feeds` — reading some tokens leads from one reading to another;
* `DerivesItems.feeds`, `DerivesBlock.feeds` — derived tokens are read, wherever they stand;
* `Before` — what the grammar says of the tokens in front of a place where a block may start: the
  finished blocks are derived, and each open block has its label and a derived part;
* `Leads.feed` — a token that is read keeps what the grammar says of the tokens in front (`Leads`).
-/

namespace BlockMachine

/-! ## Reading several tokens -/

namespace Reading

inductive Feeds : Reading → List Token → Reading → Prop
  | nil {r : Reading} : Feeds r [] r
  | cons {r mid r' : Reading} {t : Token} {ts : List Token} (hfirst : r.feed t = .ok mid)
      (hrest : Feeds mid ts r') : Feeds r (t :: ts) r'

theorem Feeds.append {r mid r' : Reading} {ts ts' : List Token} (h : Feeds r ts mid)
    (h' : Feeds mid ts' r') : Feeds r (ts ++ ts') r' := by
  induction h with
  | nil => exact h'
  | cons hfirst _ ih => exact .cons hfirst (ih h')

theorem run_eq_ok {r : Reading} {ts : List Token} {forest : List CodeBlock} :
    (r.run ts).1 = .ok forest ↔ ∃ r', Feeds r ts r' ∧ r'.finish = .ok forest := by
  induction ts generalizing r with
  | nil =>
    constructor
    · intro h
      exact ⟨r, .nil, h⟩
    · intro h
      obtain ⟨r', hfeeds, hfinish⟩ := h
      cases hfeeds
      exact hfinish
  | cons t ts ih =>
    rw [run]
    cases hfeed : r.feed t with
    | error e =>
      refine ⟨nofun, ?_⟩
      intro h
      obtain ⟨r', hfeeds, _⟩ := h
      cases hfeeds with
      | cons hfirst _ => cases hfeed.symm.trans hfirst
    | ok mid =>
      simp only [ih]
      constructor
      · intro h
        obtain ⟨r', hfeeds, hfinish⟩ := h
        exact ⟨r', .cons hfeed hfeeds, hfinish⟩
      · intro h
        obtain ⟨r', hfeeds, hfinish⟩ := h
        cases hfeeds with
        | cons hfirst hrest =>
          cases hfeed.symm.trans hfirst
          exact ⟨r', hrest, hfinish⟩

end Reading

open Reading

/-! ## Where a block may start -/

namespace Around

/-- The reading in which the next block may start: between the blocks of the program, or inside the
innermost block that is open. -/
def host : Around → Reading
  | ⟨finished, []⟩ => .between finished
  | ⟨finished, b :: enclosing⟩ => .inside b ⟨finished, enclosing⟩

def add (b : CodeBlock) : Around → Around
  | ⟨finished, []⟩ => ⟨b :: finished, []⟩
  | ⟨finished, outer :: enclosing⟩ => ⟨finished, outer.addBlock b :: enclosing⟩

def enter (b : OpenBlock) (around : Around) : Around :=
  ⟨around.finished, b :: around.enclosing⟩

theorem feed_host (around : Around) (label : String) (p : Position) :
    around.host.feed ⟨.identifier label, p⟩ = .ok (.labelled label p.line around) := by
  obtain ⟨finished, enclosing⟩ := around
  cases enclosing with
  | nil => rfl
  | cons b enclosing => rfl

theorem close_eq (around : Around) (b : OpenBlock) :
    close b around = (around.add b.close).host := by
  obtain ⟨finished, enclosing⟩ := around
  cases enclosing with
  | nil => rfl
  | cons outer enclosing => rfl

theorem feed_closing (around : Around) (b : OpenBlock) (p : Position) :
    (Reading.closing b around).feed ⟨.identifier b.label, p⟩ = .ok (around.add b.close).host := by
  simp [feed, close_eq]

end Around

namespace OpenBlock

def extend (b : OpenBlock) (is : List Instruction) (bs : List CodeBlock) : OpenBlock :=
  { b with instructions := is.reverse ++ b.instructions, blocks := bs.reverse ++ b.blocks }

theorem extend_addInstruction (b : OpenBlock) (i : Instruction) (is : List Instruction)
    (bs : List CodeBlock) : (b.addInstruction i).extend is bs = b.extend (i :: is) bs := by
  simp [extend, addInstruction]

theorem extend_addBlock (b : OpenBlock) (nested : CodeBlock) (is : List Instruction)
    (bs : List CodeBlock) : (b.addBlock nested).extend is bs = b.extend is (nested :: bs) := by
  simp [extend, addBlock]

theorem close_extend_start (label : String) (line : Nat) (is : List Instruction)
    (bs : List CodeBlock) : ((start label line).extend is bs).close = ⟨label, is, bs, line⟩ := by
  simp [start, extend, close]

end OpenBlock

/-! ## Derived tokens are read -/

theorem DerivesInstruction.feeds {ts : List Token} {i : Instruction} (h : DerivesInstruction ts i)
    (b : OpenBlock) (around : Around) :
    Feeds (.inside b around) ts (.inside (b.addInstruction i) around) := by
  cases h with
  | plain hm =>
    obtain rfl | ⟨action, rfl⟩ := hm
    · exact .cons rfl .nil
    · exact .cons rfl .nil
  | @number m p q text n hm hn =>
    have hvalue : operandOf m b.label ⟨.number text, q⟩ = .ok (.integer n) := by
      obtain rfl | rfl := hm <;>
        simp [operandOf, Mnemonic.operand, Opcode.operand?, number_eq_some.2 hn]
    have hkeyword : (Reading.inside b around).feed ⟨.keyword m, p⟩ =
        .ok (.operand m p b around) := by
      obtain rfl | rfl := hm <;> rfl
    refine .cons hkeyword (.cons ?_ .nil)
    simp only [feed, hvalue]
    rfl
  | @name m p q name hm =>
    have hvalue : operandOf m b.label ⟨.identifier name, q⟩ = .ok (.label name) := by
      obtain rfl | ⟨condition, rfl⟩ | rfl := hm <;> rfl
    have hkeyword : (Reading.inside b around).feed ⟨.keyword m, p⟩ =
        .ok (.operand m p b around) := by
      obtain rfl | ⟨condition, rfl⟩ | rfl := hm <;> rfl
    refine .cons hkeyword (.cons ?_ .nil)
    simp only [feed, hvalue]
    rfl

mutual

theorem DerivesBlock.feeds {ts : List Token} {b : CodeBlock} (h : DerivesBlock ts b)
    (around : Around) : Feeds around.host ts (around.add b).host := by
  match h with
  | @DerivesBlock.block label p q r s items is bs hitems =>
    refine .cons (around.feed_host label p) (.cons rfl ?_)
    have hclose := around.feed_closing ((OpenBlock.start label p.line).extend is bs) s
    rw [OpenBlock.close_extend_start] at hclose
    exact (hitems.feeds (.start label p.line) around).append (.cons rfl (.cons hclose .nil))

theorem DerivesItems.feeds {ts : List Token} {is : List Instruction} {bs : List CodeBlock}
    (h : DerivesItems ts is bs) (b : OpenBlock) (around : Around) :
    Feeds (.inside b around) ts (.inside (b.extend is bs) around) := by
  match h with
  | .nil => exact .nil
  | @DerivesItems.instruction ts rest i is bs hi hrest =>
    have hnext := hrest.feeds (b.addInstruction i) around
    rw [OpenBlock.extend_addInstruction] at hnext
    exact (hi.feeds b around).append hnext
  | @DerivesItems.block ts rest nested is bs hb hrest =>
    have hnext := hrest.feeds (b.addBlock nested) around
    rw [OpenBlock.extend_addBlock] at hnext
    exact (hb.feeds (around.enter b)).append hnext

end

theorem DerivesForest.feeds {ts : List Token} {bs : List CodeBlock} (h : DerivesForest ts bs)
    (finished : List CodeBlock) :
    Feeds (.between finished) ts (.between (bs.reverse ++ finished)) := by
  induction h generalizing finished with
  | nil => exact .nil
  | @cons ts rest b bs hb _ ih =>
    rw [List.reverse_cons, ← List.append_cons]
    exact (hb.feeds ⟨finished, []⟩).append (ih (b :: finished))

/-! ## Tokens that are read are derived -/

/-- The tokens in front of a place where a block may start, in terms of the grammar. -/
inductive Before : List Token → Around → Prop
  | program {ts : List Token} {finished : List CodeBlock}
      (h : DerivesForest ts finished.reverse) : Before ts ⟨finished, []⟩
  | block {ts items : List Token} {finished : List CodeBlock} {b : OpenBlock}
      {enclosing : List OpenBlock} {p q : Position} (h : Before ts ⟨finished, enclosing⟩)
      (hline : p.line = b.line)
      (hitems : DerivesItems items b.instructions.reverse b.blocks.reverse) :
      Before (ts ++ ⟨.identifier b.label, p⟩ :: ⟨.colon, q⟩ :: items) ⟨finished, b :: enclosing⟩

namespace Before

variable {ts ts' : List Token} {around : Around} {b : OpenBlock}

theorem addInstruction {i : Instruction} (h : Before ts (around.enter b))
    (hi : DerivesInstruction ts' i) :
    Before (ts ++ ts') (around.enter (b.addInstruction i)) := by
  obtain ⟨finished, enclosing⟩ := around
  cases h with
  | block h hline hitems =>
    have hitems' := hitems.snoc_instruction hi
    rw [← List.reverse_cons] at hitems'
    rw [List.append_assoc]
    exact .block (b := b.addInstruction i) h hline hitems'

theorem add {nested : CodeBlock} (h : Before ts around) (hb : DerivesBlock ts' nested) :
    Before (ts ++ ts') (around.add nested) := by
  cases h with
  | @program _ finished h =>
    refine .program ?_
    rw [List.reverse_cons]
    exact h.snoc hb
  | @block ts items finished outer enclosing p q h hline hitems =>
    have hitems' := hitems.snoc_block hb
    rw [← List.reverse_cons] at hitems'
    rw [List.append_assoc]
    exact .block (b := outer.addBlock nested) h hline hitems'

theorem close (h : Before ts (around.enter b)) (r s : Position) :
    Before (ts ++ [⟨.keyword .endBlock, r⟩, ⟨.identifier b.label, s⟩]) (around.add b.close) := by
  obtain ⟨finished, enclosing⟩ := around
  cases h with
  | @block ts items _ _ _ p q h hline hitems =>
    rw [List.append_assoc]
    refine h.add ?_
    rw [OpenBlock.close, ← hline]
    exact .block hitems

end Before

/-- What the grammar says of the tokens that have led to a reading. -/
def Leads (ts : List Token) : Reading → Prop
  | .between finished => Before ts ⟨finished, []⟩
  | .labelled label line around =>
    ∃ before p, ts = before ++ [⟨.identifier label, p⟩] ∧ p.line = line ∧ Before before around
  | .inside b around => Before ts (around.enter b)
  | .operand m p b around =>
    ∃ before, ts = before ++ [⟨.keyword m, p⟩] ∧ m.operand ≠ .nothing ∧
      Before before (around.enter b)
  | .closing b around =>
    ∃ before p, ts = before ++ [⟨.keyword .endBlock, p⟩] ∧ Before before (around.enter b)

theorem leads_host {ts : List Token} {around : Around} :
    Leads ts around.host ↔ Before ts around := by
  obtain ⟨finished, enclosing⟩ := around
  cases enclosing with
  | nil => exact Iff.rfl
  | cons b enclosing => exact Iff.rfl

theorem Mnemonic.of_operand (m : Mnemonic) :
    match m.operand with
    | .nothing => m = .endBlock ∨ m = .op .ret ∨ ∃ action, m = .op (.act action)
    | .number => m = .op .push ∨ m = .op .popN
    | .name => m = .op .call ∨ (∃ condition, m = .op (.jump condition)) ∨ m = .mark := by
  cases m with
  | endBlock => exact .inl rfl
  | mark => exact .inr (.inr rfl)
  | op opcode =>
    cases opcode with
    | ret => exact .inr (.inl rfl)
    | act action => exact .inr (.inr ⟨action, rfl⟩)
    | push => exact .inl rfl
    | popN => exact .inr rfl
    | call => exact .inl rfl
    | jump condition => exact .inr (.inl ⟨condition, rfl⟩)

/-- A keyword with the operand that has been read behind it. -/
theorem derivesInstruction_of_operandOf {m : Mnemonic} {label : String} {t : Token} {v : Value}
    (hm : m.operand ≠ .nothing) (h : operandOf m label t = .ok v) (p : Position) :
    DerivesInstruction [⟨.keyword m, p⟩, t] ⟨m, some v, p⟩ := by
  obtain ⟨kind, q⟩ := t
  have hkind := m.of_operand
  simp only [operandOf] at h
  cases hoperand : m.operand with
  | nothing => exact absurd hoperand hm
  | number =>
    rw [hoperand] at h hkind
    cases kind with
    | number text =>
      simp only at h
      split at h
      · next n hn =>
        cases h
        exact .number hkind (number_eq_some.1 hn)
      · cases h
    | identifier _ | keyword _ | colon | eof => cases h
  | name =>
    rw [hoperand] at h hkind
    cases kind with
    | identifier name =>
      cases h
      exact .name hkind
    | number _ | keyword _ | colon | eof => cases h

theorem Leads.feed {ts : List Token} {r r' : Reading} {t : Token} (h : Leads ts r)
    (ht : t.kind ≠ .eof) (hfeed : r.feed t = .ok r') : Leads (ts ++ [t]) r' := by
  obtain ⟨kind, position⟩ := t
  cases r with
  | between finished =>
    simp only [Reading.feed] at hfeed
    split at hfeed
    · cases hfeed
      exact ⟨ts, position, rfl, rfl, h⟩
    · exact absurd rfl ht
    · cases hfeed
  | labelled label line around =>
    obtain ⟨before, p, rfl, hline, hbefore⟩ := h
    simp only [Reading.feed] at hfeed
    split at hfeed
    · cases hfeed
      rw [List.append_assoc]
      exact .block (b := .start label line) hbefore hline .nil
    · cases hfeed
  | inside b around =>
    simp only [Reading.feed] at hfeed
    split at hfeed
    · cases hfeed
      exact ⟨ts, position, rfl, h⟩
    · next m hend =>
      by_cases hm : m.operand = .nothing
      · rw [if_pos hm] at hfeed
        cases hfeed
        have hkind := m.of_operand
        rw [hm] at hkind
        obtain rfl | hplain := hkind
        · exact absurd rfl hend
        · exact Before.addInstruction h (.plain hplain)
      · rw [if_neg hm] at hfeed
        cases hfeed
        exact ⟨ts, rfl, hm, h⟩
    · cases hfeed
      exact ⟨ts, position, rfl, rfl, h⟩
    · cases hfeed
  | operand m p b around =>
    obtain ⟨before, rfl, hm, hbefore⟩ := h
    simp only [Reading.feed] at hfeed
    cases hvalue : operandOf m b.label ⟨kind, position⟩ with
    | error e => rw [hvalue] at hfeed; cases hfeed
    | ok v =>
      rw [hvalue] at hfeed
      cases hfeed
      rw [List.append_assoc]
      exact hbefore.addInstruction (derivesInstruction_of_operandOf hm hvalue p)
  | closing b around =>
    obtain ⟨before, p, rfl, hbefore⟩ := h
    simp only [Reading.feed] at hfeed
    split at hfeed
    · next name =>
      by_cases hname : name = b.label
      · rw [if_pos hname, Around.close_eq] at hfeed
        cases hfeed
        rw [leads_host, List.append_assoc, hname]
        exact hbefore.close p position
      · rw [if_neg hname] at hfeed
        cases hfeed
    · cases hfeed

theorem Reading.Feeds.leads {ts ts' : List Token} {r r' : Reading} (h : Feeds r ts' r')
    (hts : ∀ t ∈ ts', t.kind ≠ .eof) (hr : Leads ts r) : Leads (ts ++ ts') r' := by
  induction h generalizing ts with
  | nil => rwa [List.append_nil]
  | cons hfirst _ ih =>
    rw [List.forall_mem_cons] at hts
    have hnext := ih hts.2 (hr.feed hts.1 hfirst)
    rwa [List.append_assoc] at hnext

/-! ## Forests -/

theorem run_start_eq_ok {ts : List Token} {forest : List CodeBlock}
    (hts : ∀ t ∈ ts, t.kind ≠ .eof) :
    (Reading.start.run ts).1 = .ok forest ↔ DerivesForest ts forest := by
  rw [run_eq_ok]
  constructor
  · intro h
    obtain ⟨r, hfeeds, hfinish⟩ := h
    have hleads : Leads ts r := hfeeds.leads hts (.program .nil)
    cases r with
    | between finished =>
      cases hfinish
      cases hleads with
      | program hforest => exact hforest
    | labelled _ _ _ | inside _ _ | operand _ _ _ _ | closing _ _ => cases hfinish
  · intro h
    refine ⟨_, h.feeds [], ?_⟩
    simp [finish]

theorem unread_of_not_eof {ts : List Token} (h : ∀ t ∈ ts, t.kind ≠ .eof) :
    (Reader.ofTokens ts).unread = ts := by
  rw [Reader.ofTokens, List.takeWhile_eq_self_iff]
  simpa using h

theorem unread_of_eof {ts : List Token} (h : ∀ t ∈ ts, t.kind ≠ .eof) (p : Position) :
    (Reader.ofTokens (ts ++ [⟨.eof, p⟩])).unread = ts := by
  rw [Reader.ofTokens, List.takeWhile_append_of_pos]
  · simp
  · simpa using h

theorem DerivesProgram.front {tokens : List Token} {forest : List CodeBlock}
    (h : DerivesProgram tokens forest) :
    DerivesForest (Reader.ofTokens tokens).unread forest := by
  cases h with
  | unmarked h => rwa [unread_of_not_eof h.not_eof]
  | marked h => rwa [unread_of_eof h.not_eof]

theorem derivesProgram_of_front {tokens : List Token} {forest : List CodeBlock}
    (hend : ∀ t ∈ tokens.dropLast, t.kind ≠ .eof)
    (h : DerivesForest (Reader.ofTokens tokens).unread forest) :
    DerivesProgram tokens forest := by
  induction tokens using List.reverseRecOn with
  | nil => exact .unmarked h
  | append_singleton ts t _ =>
    rw [List.dropLast_concat] at hend
    by_cases ht : t.kind = .eof
    · obtain ⟨kind, p⟩ := t
      obtain rfl : kind = .eof := ht
      rw [unread_of_eof hend] at h
      exact .marked h
    · have hall : ∀ u ∈ ts ++ [t], u.kind ≠ .eof := by simpa [or_imp, forall_and] using ⟨hend, ht⟩
      rw [unread_of_not_eof hall] at h
      exact .unmarked h

theorem readTree_ofTokens {tokens : List Token} {forest : List CodeBlock} :
    (Reader.ofTokens tokens).readTree.1 = .ok forest ↔
      DerivesForest (Reader.ofTokens tokens).unread forest := by
  refine run_start_eq_ok ?_
  intro t ht
  simpa using List.mem_takeWhile_imp ht

/-- Reading accepts exactly the programs of the grammar and gives the forest that is derived; and
the grammar gives no tokens more than one forest. -/
theorem read_forest_iff_derived :
    (∀ tokens : List Token, (∀ t ∈ tokens.dropLast, t.kind ≠ .eof) → ∀ forest : List CodeBlock,
      (Reader.ofTokens tokens).readTree.1 = .ok forest ↔ DerivesProgram tokens forest) ∧
    ∀ (tokens : List Token) (forest other : List CodeBlock),
      DerivesProgram tokens forest → DerivesProgram tokens other → forest = other := by
  constructor
  · intro tokens hend forest
    rw [readTree_ofTokens]
    exact ⟨derivesProgram_of_front hend, DerivesProgram.front⟩
  · intro tokens forest other h h'
    have hread := readTree_ofTokens.2 h.front
    have hread' := readTree_ofTokens.2 h'.front
    exact Except.ok.inj (hread.symm.trans hread')

/-- A block between two instructions of another one. -/
theorem read_forest_iff_derived_nested :
    let place (column : Nat) : Position := ⟨1, column⟩
    let tokens : List Token :=
      [⟨.identifier "main", place 1⟩, ⟨.colon, place 2⟩, ⟨.keyword (.op .push), place 3⟩,
        ⟨.number "-2", place 4⟩, ⟨.identifier "inner", ⟨2, 1⟩⟩, ⟨.colon, place 6⟩,
        ⟨.keyword .endBlock, place 7⟩, ⟨.identifier "inner", place 8⟩,
        ⟨.keyword (.op .ret), place 9⟩, ⟨.keyword .endBlock, place 10⟩,
        ⟨.identifier "main", place 11⟩, ⟨.eof, place 12⟩]
    let forest : List CodeBlock :=
      [⟨"main", [⟨.op .push, some (.integer (-2)), place 3⟩, ⟨.op .ret, none, place 9⟩],
        [⟨"inner", [], [], 2⟩], 1⟩]
    (∀ t ∈ tokens.dropLast, t.kind ≠ .eof) ∧ (Reader.ofTokens tokens).readTree.1 = .ok forest ∧
      DerivesProgram tokens forest := by
  intro place tokens forest
  have hend : ∀ t ∈ tokens.dropLast, t.kind ≠ .eof := by decide
  have hread : (Reader.ofTokens tokens).readTree.1 = .ok forest := rfl
  exact ⟨hend, hread, (read_forest_iff_derived.1 tokens hend forest).1 hread⟩

end BlockMachine
