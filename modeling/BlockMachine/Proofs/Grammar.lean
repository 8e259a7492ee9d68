import BlockMachine.Source.Reading
import Mathlib.Data.Nat.Digits.Defs

/-! # The grammar of source texts

What it means that tokens are a program, said without a reader:

    program      block* EOF
    block        IDENTIFIER ':' (instruction | block)* END IDENTIFIER
    instruction  RET | an action | (PUSH | POP_N) NUMBER | (CALL | a jump | MARK) IDENTIFIER

A derivation builds the forest: a block has its instructions and its nested blocks apart, both in
the order of the text, and the name behind `END` is its label.

* `SignedDecimal` — the numbers that may stand behind `PUSH` and `POP_N`, with their values;
* `DerivesInstruction`, `DerivesBlock`, `DerivesItems`, `DerivesForest`, `DerivesProgram` — one
  relation for each part of the grammar;
* `DerivesItems.append`, `DerivesForest.snoc` — what stands behind each other is derived together;
* `DerivesForest.not_eof` — the end of the input is not part of any block.
-/

namespace BlockMachine

/-! ## Numbers -/

def Decimal (digits : List Char) (n : Nat) : Prop :=
  digits ≠ [] ∧ (∀ c ∈ digits, c.isDigit) ∧
    n = Nat.ofDigits 10 (digits.reverse.map Numeral.digitValue)

inductive SignedDecimal : List Char → Int → Prop
  | bare {digits : List Char} {n : Nat} (h : Decimal digits n) : SignedDecimal digits n
  | plus {digits : List Char} {n : Nat} (h : Decimal digits n) : SignedDecimal ('+' :: digits) n
  | minus {digits : List Char} {n : Nat} (h : Decimal digits n) :
      SignedDecimal ('-' :: digits) (-n)

theorem decimalValue_eq_ofDigits (digits : List Char) :
    Numeral.decimalValue digits = Nat.ofDigits 10 (digits.reverse.map Numeral.digitValue) := by
  rw [Numeral.decimalValue, List.foldl_eq_foldr_reverse, Nat.ofDigits_eq_foldr, List.foldr_map]
  simp only [Nat.cast_id, Nat.add_comm]

theorem decimal?_eq_some {digits : List Char} {n : Nat} :
    Numeral.decimal? digits = some n ↔ Decimal digits n := by
  simp only [Numeral.decimal?, Decimal, ← decimalValue_eq_ofDigits, List.all_eq_true]
  by_cases h : digits ≠ [] ∧ ∀ c ∈ digits, c.isDigit
  · rw [if_pos h, Option.some.injEq, eq_comm]
    exact ⟨fun hn => ⟨h.1, h.2, hn⟩, fun hn => hn.2.2⟩
  · rw [if_neg h]
    exact ⟨nofun, fun hn => absurd ⟨hn.1, hn.2.1⟩ h⟩

/-- A decimal number does not start with a sign. -/
theorem Decimal.signed? {digits : List Char} {n : Nat} (h : Decimal digits n) :
    Numeral.signed? digits = some (n : Int) := by
  have hvalue : (Numeral.decimal? digits).map Int.ofNat = some (n : Int) := by
    rw [decimal?_eq_some.2 h]
    rfl
  rw [Numeral.signed?]
  · exact hvalue
  · rintro rest rfl
    exact absurd (h.2.1 '+' List.mem_cons_self) (by decide)
  · rintro rest rfl
    exact absurd (h.2.1 '-' List.mem_cons_self) (by decide)

theorem signed?_eq_some {text : List Char} {n : Int} :
    Numeral.signed? text = some n ↔ SignedDecimal text n := by
  constructor
  · intro h
    simp only [Numeral.signed?] at h
    split at h
    · next digits =>
      obtain ⟨m, hm, rfl⟩ := Option.map_eq_some_iff.1 h
      exact .plus (decimal?_eq_some.1 hm)
    · next digits =>
      obtain ⟨m, hm, rfl⟩ := Option.map_eq_some_iff.1 h
      exact .minus (decimal?_eq_some.1 hm)
    · obtain ⟨m, hm, rfl⟩ := Option.map_eq_some_iff.1 h
      exact .bare (decimal?_eq_some.1 hm)
  · intro h
    cases h with
    | bare h => exact h.signed?
    | plus h => rw [Numeral.signed?, decimal?_eq_some.2 h]; rfl
    | minus h => rw [Numeral.signed?, decimal?_eq_some.2 h]; rfl

theorem fit?_eq_some {n : Int} {m : Int32} : fit? n = some m ↔ m.toInt = n := by
  refine ⟨toInt_of_fit?, ?_⟩
  rintro rfl
  rw [fit?, if_pos ⟨Int32.minValue_le_toInt m, Int32.toInt_le m⟩, Int32.ofInt_toInt]

theorem number_eq_some {text : List Char} {m : Int32} :
    Numeral.signed? text >>= fit? = some m ↔ SignedDecimal text m.toInt := by
  rw [Option.bind_eq_bind, Option.bind_eq_some_iff]
  simp only [signed?_eq_some, fit?_eq_some]
  constructor
  · rintro ⟨_, h, rfl⟩
    exact h
  · intro h
    exact ⟨_, h, rfl⟩

/-! ## Instructions and blocks -/

inductive DerivesInstruction : List Token → Instruction → Prop
  | plain {m : Mnemonic} {p : Position} (hm : m = .op .ret ∨ ∃ action, m = .op (.act action)) :
      DerivesInstruction [⟨.keyword m, p⟩] ⟨m, none, p⟩
  | number {m : Mnemonic} {p q : Position} {text : String} {n : Int32}
      (hm : m = .op .push ∨ m = .op .popN) (hn : SignedDecimal text.toList n.toInt) :
      DerivesInstruction [⟨.keyword m, p⟩, ⟨.number text, q⟩] ⟨m, some (.integer n), p⟩
  | name {m : Mnemonic} {p q : Position} {name : String}
      (hm : m = .op .call ∨ (∃ condition, m = .op (.jump condition)) ∨ m = .mark) :
      DerivesInstruction [⟨.keyword m, p⟩, ⟨.identifier name, q⟩] ⟨m, some (.label name), p⟩

mutual

/-- The tokens of one block, with the forest nested in it. -/
inductive DerivesBlock : List Token → CodeBlock → Prop
  | block {label : String} {p q r s : Position} {items : List Token} {is : List Instruction}
      {bs : List CodeBlock} (h : DerivesItems items is bs) :
      DerivesBlock
        (⟨.identifier label, p⟩ :: ⟨.colon, q⟩ ::
          (items ++ [⟨.keyword .endBlock, r⟩, ⟨.identifier label, s⟩]))
        ⟨label, is, bs, p.line⟩

/-- The tokens inside a block, with its instructions and its blocks. -/
inductive DerivesItems : List Token → List Instruction → List CodeBlock → Prop
  | nil : DerivesItems [] [] []
  | instruction {ts rest : List Token} {i : Instruction} {is : List Instruction}
      {bs : List CodeBlock} (hi : DerivesInstruction ts i) (hrest : DerivesItems rest is bs) :
      DerivesItems (ts ++ rest) (i :: is) bs
  | block {ts rest : List Token} {b : CodeBlock} {is : List Instruction} {bs : List CodeBlock}
      (hb : DerivesBlock ts b) (hrest : DerivesItems rest is bs) :
      DerivesItems (ts ++ rest) is (b :: bs)

end

inductive DerivesForest : List Token → List CodeBlock → Prop
  | nil : DerivesForest [] []
  | cons {ts rest : List Token} {b : CodeBlock} {bs : List CodeBlock} (hb : DerivesBlock ts b)
      (hrest : DerivesForest rest bs) : DerivesForest (ts ++ rest) (b :: bs)

/-- The tokens of a whole program.  The end of the input has a token of its own or is just the end
of the tokens. -/
inductive DerivesProgram : List Token → List CodeBlock → Prop
  | unmarked {ts : List Token} {bs : List CodeBlock} (h : DerivesForest ts bs) :
      DerivesProgram ts bs
  | marked {ts : List Token} {bs : List CodeBlock} {p : Position} (h : DerivesForest ts bs) :
      DerivesProgram (ts ++ [⟨.eof, p⟩]) bs

theorem DerivesItems.append {ts ts' : List Token} {is is' : List Instruction}
    {bs bs' : List CodeBlock} (h : DerivesItems ts is bs) (h' : DerivesItems ts' is' bs') :
    DerivesItems (ts ++ ts') (is ++ is') (bs ++ bs') := by
  match h with
  | .nil => exact h'
  | .instruction hi hrest =>
    rw [List.append_assoc]
    exact .instruction hi (hrest.append h')
  | .block hb hrest =>
    rw [List.append_assoc]
    exact .block hb (hrest.append h')

theorem DerivesItems.snoc_instruction {ts ts' : List Token} {is : List Instruction}
    {bs : List CodeBlock} {i : Instruction} (h : DerivesItems ts is bs)
    (hi : DerivesInstruction ts' i) : DerivesItems (ts ++ ts') (is ++ [i]) bs := by
  simpa using h.append (.instruction hi .nil)

theorem DerivesItems.snoc_block {ts ts' : List Token} {is : List Instruction}
    {bs : List CodeBlock} {b : CodeBlock} (h : DerivesItems ts is bs) (hb : DerivesBlock ts' b) :
    DerivesItems (ts ++ ts') is (bs ++ [b]) := by
  simpa using h.append (.block hb .nil)

theorem DerivesInstruction.not_eof {ts : List Token} {i : Instruction}
    (h : DerivesInstruction ts i) : ∀ t ∈ ts, t.kind ≠ .eof := by
  cases h with
  | plain _ => simp
  | number _ _ => simp
  | name _ => simp

mutual

theorem DerivesBlock.not_eof {ts : List Token} {b : CodeBlock} (h : DerivesBlock ts b) :
    ∀ t ∈ ts, t.kind ≠ .eof := by
  match h with
  | .block hitems => simpa [or_imp, forall_and] using hitems.not_eof

theorem DerivesItems.not_eof {ts : List Token} {is : List Instruction} {bs : List CodeBlock}
    (h : DerivesItems ts is bs) : ∀ t ∈ ts, t.kind ≠ .eof := by
  match h with
  | .nil => simp
  | .instruction hi hrest => exact List.forall_mem_append.2 ⟨hi.not_eof, hrest.not_eof⟩
  | .block hb hrest => exact List.forall_mem_append.2 ⟨hb.not_eof, hrest.not_eof⟩

end

theorem DerivesForest.not_eof {ts : List Token} {bs : List CodeBlock} (h : DerivesForest ts bs) :
    ∀ t ∈ ts, t.kind ≠ .eof := by
  induction h with
  | nil => simp
  | cons hb _ ih => exact List.forall_mem_append.2 ⟨hb.not_eof, ih⟩

theorem DerivesForest.snoc {ts ts' : List Token} {bs : List CodeBlock} {b : CodeBlock}
    (h : DerivesForest ts bs) (hb : DerivesBlock ts' b) :
    DerivesForest (ts ++ ts') (bs ++ [b]) := by
  induction h with
  | nil => simpa using DerivesForest.cons hb .nil
  | cons hfirst _ ih =>
    rw [List.append_assoc]
    exact .cons hfirst ih

end BlockMachine
