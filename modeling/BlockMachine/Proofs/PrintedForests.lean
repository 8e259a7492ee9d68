import BlockMachine.Proofs.Positions
import BlockMachine.Proofs.ReadingGrammar
import BlockMachine.Proofs.Scanning

/-! # Printed forests are read back

A forest is printed line by line: the label of a block with its colon, the instructions of the
block, the blocks nested in it, and its `END`.  Reading the text gives the forest back, but for the
positions, which are now those in the text.

The proof goes through the tokens of a forest.  The text of each line is cut into the tokens of that
line, whatever lines stand behind it; and the tokens derive the forest by the grammar.

* `IsName`, `Instruction.Printable`, `CodeBlock.Printable` — what can be printed;
* `CodeBlock.printAll` — the text of a forest;
* `derivesForest_tokensAll`, `spells_printAll` — the tokens between forest and text;
* `printed_forest_is_read_back` — the round trip.
-/

namespace BlockMachine

open Character

/-! ## What can be printed -/

/-- A name is made of letters, digits and underscores, does not start with a digit, and spells no
keyword in any letter case. -/
structure IsName (name : String) : Prop where
  shape : ∃ c rest, name.toList = c :: rest ∧ (c.isAlpha ∨ c = '_') ∧
    ∀ d ∈ rest, d.isAlphanum ∨ d = '_'
  no_keyword : ∀ m : Mnemonic, m.text ≠ name.toUpper

theorem isName_iff {name : String} :
    IsName name ↔ name.toList.head?.any (fun c => c.isAlpha || c == '_') ∧
      name.toList.tail.all (fun d => d.isAlphanum || d == '_') ∧ Mnemonic.ofWord? name = none := by
  rw [Mnemonic.ofWord?_eq_none]
  constructor
  · rintro ⟨⟨c, rest, htext, hc, hrest⟩, hkeyword⟩
    rw [htext]
    exact ⟨by simpa using hc, by simpa using hrest, hkeyword⟩
  · rintro ⟨hhead, hrest, hkeyword⟩
    refine ⟨?_, hkeyword⟩
    cases htext : name.toList with
    | nil => simp [htext] at hhead
    | cons c rest =>
      rw [htext] at hhead hrest
      exact ⟨c, rest, rfl, by simpa using hhead, by simpa using hrest⟩

instance : DecidablePred IsName :=
  fun _ => decidable_of_iff' _ isName_iff

/-- The operand is of the kind that stands behind the mnemonic in the grammar. -/
inductive Instruction.Printable : Instruction → Prop
  | plain {m : Mnemonic} {p : Position} (hm : m = .op .ret ∨ ∃ action, m = .op (.act action)) :
      Printable ⟨m, none, p⟩
  | number {m : Mnemonic} {n : Int32} {p : Position} (hm : m = .op .push ∨ m = .op .popN)
      (hn : 0 ≤ n.toInt) : Printable ⟨m, some (.integer n), p⟩
  | name {m : Mnemonic} {name : String} {p : Position}
      (hm : m = .op .call ∨ (∃ condition, m = .op (.jump condition)) ∨ m = .mark)
      (hname : IsName name) : Printable ⟨m, some (.label name), p⟩

inductive CodeBlock.Printable : CodeBlock → Prop
  | block {label : String} {instructions : List Instruction} {blocks : List CodeBlock} {line : Nat}
      (hlabel : IsName label) (hinstructions : ∀ i ∈ instructions, i.Printable)
      (hblocks : ∀ b ∈ blocks, b.Printable) : Printable ⟨label, instructions, blocks, line⟩

namespace CodeBlock

mutual

/-- The lines of a printed block. -/
def lines : CodeBlock → List String
  | ⟨label, instructions, blocks, _⟩ =>
    (label ++ ":") :: (instructions.map Instruction.text ++ linesAll blocks ++ ["END " ++ label])

def linesAll : List CodeBlock → List String
  | [] => []
  | b :: rest => b.lines ++ linesAll rest

end

/-- The text of a forest, with a newline between each two lines. -/
def printAll (forest : List CodeBlock) : String :=
  "\n".intercalate (linesAll forest)

end CodeBlock

/-! ## Tokens of a forest -/

/-- The tokens of an instruction, all where the instruction stands. -/
def Instruction.tokens (i : Instruction) : List Token :=
  ⟨.keyword i.mnemonic, i.position⟩ ::
    match i.operand with
    | none => []
    | some (.integer n) => [⟨.number (toString n.toInt), i.position⟩]
    | some (.label name) => [⟨.identifier name, i.position⟩]

namespace CodeBlock

mutual

/-- The tokens of a block, those of its label and its end on the line of the block. -/
def tokens : CodeBlock → List Token
  | ⟨label, instructions, blocks, line⟩ =>
    ⟨.identifier label, ⟨line, 1⟩⟩ :: ⟨.colon, ⟨line, 1⟩⟩ ::
      (instructions.flatMap Instruction.tokens ++ tokensAll blocks ++
        [⟨.keyword .endBlock, ⟨line, 1⟩⟩, ⟨.identifier label, ⟨line, 1⟩⟩])

def tokensAll : List CodeBlock → List Token
  | [] => []
  | b :: rest => b.tokens ++ tokensAll rest

end

end CodeBlock

open CodeBlock

/-- A number that is not negative is printed as its decimal digits. -/
theorem toList_toString_of_nonneg {n : Int} (h : 0 ≤ n) :
    (toString n).toList = Nat.toDigits 10 n.toNat := by
  obtain ⟨k, rfl⟩ := Int.eq_ofNat_of_zero_le h
  rw [Int.toString_eq_repr, Int.repr_eq_if]
  simp [Nat.repr_eq_ofList_toDigits]

theorem decimal_toDigits (n : Nat) : Decimal (Nat.toDigits 10 n) n := by
  rw [← decimal?_eq_some, Numeral.decimal?, if_pos]
  · rw [Option.some.injEq, Numeral.decimalValue]
    exact (Nat.ofDigitChars_eq_foldl ..).symm.trans Nat.ofDigitChars_ten_toDigits
  · refine ⟨Nat.toDigits_ne_nil, List.all_eq_true.2 ?_⟩
    intro c hc
    exact Nat.isDigit_of_mem_toDigits (by decide) (by decide) hc

theorem Instruction.Printable.derives {i : Instruction} (h : i.Printable) :
    DerivesInstruction i.tokens i := by
  cases h with
  | plain hm => exact .plain hm
  | @number m n p hm hn =>
    refine .number hm ?_
    rw [toList_toString_of_nonneg hn]
    have hdecimal := SignedDecimal.bare (decimal_toDigits n.toInt.toNat)
    rwa [Int.toNat_of_nonneg hn] at hdecimal
  | name hm _ => exact .name hm

theorem derivesItems_instructions {is : List Instruction} (h : ∀ i ∈ is, i.Printable) :
    DerivesItems (is.flatMap Instruction.tokens) is [] := by
  induction is with
  | nil => exact .nil
  | cons i is ih =>
    rw [List.forall_mem_cons] at h
    exact .instruction h.1.derives (ih h.2)

theorem derivesItems_blocks {bs : List CodeBlock} (h : ∀ b ∈ bs, DerivesBlock b.tokens b) :
    DerivesItems (tokensAll bs) [] bs := by
  induction bs with
  | nil => exact .nil
  | cons b bs ih =>
    rw [List.forall_mem_cons] at h
    exact .block h.1 (ih h.2)

theorem CodeBlock.Printable.derives {b : CodeBlock} (h : b.Printable) :
    DerivesBlock b.tokens b := by
  induction h with
  | @block label is bs line _ his _ ih =>
    have hitems := (derivesItems_instructions his).append (derivesItems_blocks ih)
    rw [List.append_nil, List.nil_append] at hitems
    exact .block hitems

/-- The tokens of a forest derive it. -/
theorem derivesForest_tokensAll {forest : List CodeBlock} (h : ∀ b ∈ forest, b.Printable) :
    DerivesForest (tokensAll forest) forest := by
  induction forest with
  | nil => exact .nil
  | cons b forest ih =>
    rw [List.forall_mem_cons] at h
    exact .cons h.1.derives (ih h.2)

/-! ## Words and numbers in a text -/

theorem isWordStart_of_isAlpha {c : Char} (h : c.isAlpha ∨ c = '_') : isWordStart c := by
  rw [isWordStart_iff]
  obtain h | rfl := h
  · obtain hupper | hlower := Bool.or_eq_true_iff.1 h
    · exact .inr (.inl (of_decide_eq_true hupper))
    · obtain ⟨hlow, hhigh⟩ := Bool.and_eq_true_iff.1 hlower
      exact .inl ⟨of_decide_eq_true hlow, of_decide_eq_true hhigh⟩
  · exact .inr (.inr rfl)

theorem isWordPart_of_isAlphanum {c : Char} (h : c.isAlphanum ∨ c = '_') : isWordPart c := by
  rw [isWordPart, Bool.or_eq_true]
  obtain h | rfl := h
  · obtain halpha | hdigit := Bool.or_eq_true_iff.1 h
    · exact .inl (isWordStart_of_isAlpha (.inl halpha))
    · exact .inr (isDigit_iff.2 (Char.isDigit_iff_toNat.1 hdigit))
  · exact .inl (by decide)

/-- A word as the language knows it. -/
def isWord : List Char → Bool
  | [] => false
  | c :: rest => isWordStart c && rest.all isWordPart

theorem writes_word {text : List Char} {kind : TokenKind} (h : isWord text)
    (hkind : (Segment.word text).token? = some kind) : Writes text [kind] := by
  refine .of_segment hkind ?_
  intro rest hrest
  cases text with
  | nil => cases h
  | cons c word =>
    rw [isWord, Bool.and_eq_true, List.all_eq_true] at h
    exact segments_word h.1 h.2 hrest

/-- A keyword is a word that spells itself. -/
theorem writes_keyword (m : Mnemonic) : Writes m.text.toList [.keyword m] := by
  have hwords : ∀ m ∈ Mnemonic.all, isWord m.text.toList ∧ Mnemonic.ofWord? m.text = some m := by
    decide +kernel
  obtain ⟨hword, hspelled⟩ := hwords m m.mem_all
  refine writes_word hword ?_
  simp [Segment.token?, hspelled]

theorem writes_name {name : String} (h : IsName name) : Writes name.toList [.identifier name] := by
  refine writes_word ?_ ?_
  · obtain ⟨c, rest, htext, hc, hrest⟩ := h.shape
    rw [htext, isWord, Bool.and_eq_true, List.all_eq_true]
    exact ⟨isWordStart_of_isAlpha hc, fun d hd => isWordPart_of_isAlphanum (hrest d hd)⟩
  · have hnone : Mnemonic.ofWord? name = none := Mnemonic.ofWord?_eq_none.2 h.no_keyword
    simp [Segment.token?, hnone]

theorem writes_digits {digits : List Char} (hne : digits ≠ []) (h : ∀ c ∈ digits, isDigit c) :
    Writes digits [.number (String.ofList digits)] := by
  -- No digit is one of the underscores that are left out of a number.
  have hkept : digits.filter (· != '_') = digits := by
    rw [List.filter_eq_self]
    intro c hc
    have hdigit := h c hc
    rw [bne_iff_ne]
    rintro rfl
    exact absurd hdigit (by decide)
  refine .of_segment (s := .number digits) ?_ ?_
  · rw [Segment.token?, hkept]
  · intro rest hrest
    cases digits with
    | nil => exact absurd rfl hne
    | cons c digits =>
      rw [List.forall_mem_cons] at h
      refine segments_number h.1 ?_ hrest
      intro d hd
      rw [isNumberPart, h.2 d hd, Bool.true_or]

theorem writes_number {n : Int} (h : 0 ≤ n) :
    Writes (toString n).toList [.number (toString n)] := by
  have htext := toList_toString_of_nonneg h
  have hdigits : ∀ c ∈ (toString n).toList, isDigit c := by
    rw [htext]
    intro c hc
    have hdigit := Nat.isDigit_of_mem_toDigits (by decide) (by decide) hc
    exact isDigit_iff.2 (Char.isDigit_iff_toNat.1 hdigit)
  have hwrites := writes_digits (htext ▸ Nat.toDigits_ne_nil) hdigits
  rwa [String.ofList_toList] at hwrites

/-! ## Lines in a text -/

/-- A keyword and what stands behind it. -/
theorem writes_operand {m : Mnemonic} {operand : String} {kind : TokenKind}
    (h : Writes operand.toList [kind]) :
    Writes (m.text ++ " " ++ operand).toList [.keyword m, kind] := by
  rw [String.append_assoc, String.toList_append, String.toList_append]
  exact (writes_keyword m).append_cons (by decide) (h.blank (by decide))

theorem Instruction.Printable.writes {i : Instruction} (h : i.Printable) :
    Writes i.text.toList (i.tokens.map Token.kind) := by
  cases h with
  | plain hm => exact writes_keyword _
  | number hm hn => exact writes_operand (writes_number hn)
  | name hm hname => exact writes_operand (writes_name hname)

/-- Lines, each with the tokens that it writes. -/
inductive WritesLines : List String → List TokenKind → Prop
  | nil : WritesLines [] []
  | cons {line : String} {lines : List String} {kinds more : List TokenKind}
      (h : Writes line.toList kinds) (hrest : WritesLines lines more) :
      WritesLines (line :: lines) (kinds ++ more)

namespace WritesLines

theorem append {lines lines' : List String} {kinds kinds' : List TokenKind}
    (h : WritesLines lines kinds) (h' : WritesLines lines' kinds') :
    WritesLines (lines ++ lines') (kinds ++ kinds') := by
  induction h with
  | nil => exact h'
  | cons hline _ ih =>
    rw [List.append_assoc]
    exact .cons hline ih

/-- Newlines keep the tokens of the lines apart. -/
theorem join {lines : List String} {kinds : List TokenKind} (h : WritesLines lines kinds) :
    Writes ("\n".intercalate lines).toList kinds := by
  induction h with
  | nil => exact .nil
  | @cons line lines kinds more hline hrest ih =>
    rw [String.toList_intercalate] at ih ⊢
    cases lines with
    | nil =>
      cases hrest
      simpa using hline
    | cons next lines =>
      rw [List.map_cons, List.map_cons, List.intercalate_cons_cons, List.append_assoc]
      exact hline.append_cons (c := '\n') (by decide) (ih.blank (by decide))

end WritesLines

theorem writesLines_instructions {is : List Instruction} (h : ∀ i ∈ is, i.Printable) :
    WritesLines (is.map Instruction.text) ((is.flatMap Instruction.tokens).map Token.kind) := by
  induction is with
  | nil => exact .nil
  | cons i is ih =>
    rw [List.forall_mem_cons] at h
    rw [List.map_cons, List.flatMap_cons, List.map_append]
    exact .cons h.1.writes (ih h.2)

theorem writesLines_blocks {bs : List CodeBlock}
    (h : ∀ b ∈ bs, WritesLines b.lines (b.tokens.map Token.kind)) :
    WritesLines (linesAll bs) ((tokensAll bs).map Token.kind) := by
  induction bs with
  | nil => exact .nil
  | cons b bs ih =>
    rw [List.forall_mem_cons] at h
    rw [linesAll, tokensAll, List.map_append]
    exact h.1.append (ih h.2)

theorem CodeBlock.Printable.writes {b : CodeBlock} (h : b.Printable) :
    WritesLines b.lines (b.tokens.map Token.kind) := by
  induction h with
  | @block label is bs line hlabel his _ ih =>
    have hfirst : Writes (label ++ ":").toList [.identifier label, .colon] := by
      rw [String.toList_append]
      exact (writes_name hlabel).append_cons (by decide) .colon
    have hlast : Writes ("END " ++ label).toList [.keyword .endBlock, .identifier label] :=
      writes_operand (m := .endBlock) (writes_name hlabel)
    rw [lines, tokens, List.map_cons, List.map_cons, List.map_append, List.map_append]
    have hitems := (writesLines_instructions his).append (writesLines_blocks ih)
    exact .cons hfirst (hitems.append (.cons hlast .nil))

/-- The text of a forest is cut into the tokens of the forest. -/
theorem spells_printAll {forest : List CodeBlock} (h : ∀ b ∈ forest, b.Printable) :
    Spells (printAll forest).toList ((tokensAll forest).map Token.kind) :=
  (writesLines_blocks fun b hb => (h b hb).writes).join.spells

/-! ## The round trip -/

/-- A printed forest is scanned without rejections, and reading its tokens gives the forest back,
but for positions.  Reading them flat gives its flat blocks back in the same sense. -/
theorem printed_forest_is_read_back (forest : List CodeBlock)
    (hforest : ∀ b ∈ forest, b.Printable) :
    ∃ tokens scan read, (Scan.ofString (printAll forest)).tokenize = (tokens, scan) ∧
      scan.isClean ∧
      (Reader.ofTokens tokens).readTree.1 = .ok read ∧
      unplacedAll read = unplacedAll forest ∧
      (Reader.ofTokens tokens).readFlat.1 = .ok (flattenAll read) ∧
      (flattenAll read).map FlatBlock.unplaced = (flattenAll forest).map FlatBlock.unplaced := by
  obtain ⟨hclean, tokens, p, htokens, hkinds⟩ := (spells_printAll hforest).tokenize
  obtain ⟨read, hderives, hread⟩ := (derivesForest_tokensAll hforest).relocate hkinds
  have htree : (Reader.ofTokens (tokens ++ [⟨.eof, p⟩])).readTree.1 = .ok read := by
    rw [readTree_ofTokens, unread_of_eof hderives.not_eof]
    exact hderives
  refine ⟨tokens ++ [⟨.eof, p⟩], _, read, Prod.ext htokens rfl, hclean, htree, hread, ?_, ?_⟩
  · show (Reader.readTree _).1.map flattenAll = _
    rw [htree]
    rfl
  · rw [← flattenAll_unplacedAll, hread, flattenAll_unplacedAll]

/-- Blocks two deep, the largest number, and names that only start like keywords. -/
theorem printed_forest_is_read_back_nested :
    let p : Position := ⟨7, 5⟩
    let forest : List CodeBlock :=
      [⟨"main",
          [⟨.op .push, some (.integer 2147483647), p⟩, ⟨.op .popN, some (.integer 0), p⟩,
            ⟨.op (.jump .zero), some (.label "push_"), p⟩, ⟨.mark, some (.label "push_"), p⟩,
            ⟨.op (.act .pop), none, p⟩],
          [⟨"_2", [⟨.op .call, some (.label "END2"), p⟩], [⟨"END2", [], [], 9⟩], 4⟩], 7⟩,
        ⟨"Popn", [⟨.op .ret, none, p⟩], [], 0⟩]
    let text := "main:\nPUSH 2147483647\nPOP_N 0\nJEZ push_\nMARK push_\nPOP\n_2:\nCALL END2\n" ++
      "END2:\nEND END2\nEND _2\nEND main\nPopn:\nRET\nEND Popn"
    (∀ b ∈ forest, b.Printable) ∧ printAll forest = text ∧
      ∃ tokens scan read, (Scan.ofString text).tokenize = (tokens, scan) ∧ scan.isClean ∧
        (Reader.ofTokens tokens).readTree.1 = .ok read ∧ unplacedAll read = unplacedAll forest ∧
        (Reader.ofTokens tokens).readFlat.1 = .ok (flattenAll read) ∧
        (flattenAll read).map FlatBlock.unplaced = (flattenAll forest).map FlatBlock.unplaced := by
  intro p forest text
  have hnames : IsName "main" ∧ IsName "push_" ∧ IsName "_2" ∧ IsName "END2" ∧ IsName "Popn" := by
    decide +kernel
  obtain ⟨hmain, hpush, htwo, hend, hpopn⟩ := hnames
  have hforest : ∀ b ∈ forest, b.Printable := by
    simp only [forest, List.forall_mem_cons]
    refine ⟨.block hmain ?_ ?_, .block hpopn ?_ nofun, nofun⟩
    · simp only [List.forall_mem_cons]
      exact ⟨.number (.inl rfl) (by decide), .number (.inr rfl) (by decide),
        .name (.inr (.inl ⟨_, rfl⟩)) hpush, .name (.inr (.inr rfl)) hpush, .plain (.inr ⟨_, rfl⟩),
        nofun⟩
    · simp only [List.forall_mem_cons]
      refine ⟨.block htwo ?_ ?_, nofun⟩
      · exact List.forall_mem_singleton.2 (.name (.inl rfl) hend)
      · exact List.forall_mem_singleton.2 (.block hend nofun nofun)
    · exact List.forall_mem_singleton.2 (.plain (.inl rfl))
  have htext : printAll forest = text := by decide +kernel
  exact ⟨hforest, htext, htext ▸ printed_forest_is_read_back forest hforest⟩

end BlockMachine
