import BlockMachine.Proofs.Lexemes
import BlockMachine.Proofs.ReadErrors

/-! # Number literals mean their value

A number in a source text is a digit and any further digits and underscores.  What it means is the
value of its digits in base ten, however long it is and however many zeros lead it.  The value comes
about in two places: a scan drops the underscores, and a reader turns the digits into an integer of
32 bits, where the digits stand behind a keyword that takes a number.

* `NumberAt` — a number that stands in a text, by the cut of the text;
* `mem_tokenize_number` — the tokens of a scan that are numbers are those that stand in its text;
* `Reading.within` — what has been read so far, which further tokens only add to;
* `Reader.later` — a reader after some attempts.
-/

namespace BlockMachine

open Character Reading CodeBlock

/-! ## Numbers in a text -/

/-- The number `lexeme` stands in the text behind `before`: it is one of the segments that the text
is cut into. -/
def NumberAt (text before lexeme : List Char) : Prop :=
  ∃ front back tokens, Cut [] (front ++ .number lexeme :: back) tokens ∧
    (front ++ .number lexeme :: back).flatMap Segment.text = text ∧
    front.flatMap Segment.text = before

/-- The digits of a number, without the underscores. -/
def bareDigits (lexeme : List Char) : List Char :=
  lexeme.filter (· != '_')

theorem numberAt_iff {text before lexeme : List Char} :
    NumberAt text before lexeme ↔
      ∃ front back, segments text = front ++ .number lexeme :: back ∧
        front.flatMap Segment.text = before := by
  constructor
  · rintro ⟨front, back, tokens, hcut, rfl, hbefore⟩
    exact ⟨front, back, hcut.segments_eq, hbefore⟩
  · rintro ⟨front, back, hsegments, hbefore⟩
    have hcut := cut_segments [] text
    have htext := flatten_segments text
    rw [hsegments] at hcut htext
    exact ⟨front, back, _, hcut, htext, hbefore⟩

theorem mem_located {p q : Position} {s : Segment} {pieces : List Segment} :
    (q, s) ∈ located p pieces ↔
      ∃ front back, pieces = front ++ s :: back ∧ q = p.after (front.flatMap Segment.text) := by
  induction pieces generalizing p with
  | nil => simp [located]
  | cons first rest ih =>
    rw [located, List.mem_cons, ih, Prod.mk.injEq]
    constructor
    · rintro (⟨rfl, rfl⟩ | ⟨front, back, rfl, rfl⟩)
      · exact ⟨[], rest, rfl, rfl⟩
      · exact ⟨first :: front, back, rfl, by simp⟩
    · rintro ⟨front, back, hpieces, rfl⟩
      cases front with
      | nil =>
        cases hpieces
        exact .inl ⟨rfl, rfl⟩
      | cons _ front =>
        cases hpieces
        exact .inr ⟨front, back, rfl, by simp⟩

/-- The tokens for numbers are those of the numbers in the text. -/
theorem mem_tokenize_number {source text : String} {q : Position} :
    ⟨.number text, q⟩ ∈ (Scan.ofString source).tokenize.1 ↔
      ∃ before lexeme, NumberAt source.toList before lexeme ∧
        text = String.ofList (bareDigits lexeme) ∧ q = .behind before := by
  have hscan : (Scan.ofString source).tokenize.1 = tokensOf .start (segments source.toList) :=
    (Scan.ofString source).tokens_eq
  have hkind : ∀ {s : Segment}, s.token? = some (.number text) ↔
      ∃ lexeme, s = .number lexeme ∧ text = String.ofList (bareDigits lexeme) := by
    intro s
    rw [Segment.token?_eq_some]
    constructor
    · intro h
      cases h
      exact ⟨_, rfl, rfl⟩
    · rintro ⟨lexeme, rfl, rfl⟩
      exact .number
  rw [hscan, tokensOf, List.mem_append, List.mem_filterMap]
  constructor
  · rintro (⟨⟨p, s⟩, hmem, htoken⟩ | heof)
    · obtain ⟨front, back, hpieces, rfl⟩ := mem_located.1 hmem
      obtain ⟨kind, hs, heq⟩ := Option.map_eq_some_iff.1 htoken
      cases heq
      obtain ⟨lexeme, rfl, htext⟩ := hkind.1 hs
      exact ⟨_, lexeme, numberAt_iff.2 ⟨front, back, hpieces, rfl⟩, htext, Position.start_after _⟩
    · simp at heof
  · rintro ⟨before, lexeme, hat, htext, rfl⟩
    obtain ⟨front, back, hpieces, rfl⟩ := numberAt_iff.1 hat
    refine .inl ⟨(_, .number lexeme), mem_located.2 ⟨front, back, hpieces, rfl⟩, ?_⟩
    rw [hkind.2 ⟨lexeme, rfl, htext⟩, Position.start_after]
    rfl

theorem Cut.stands_of_mem {before : List Char} {pieces : List Segment} {tokens : List Token}
    (h : Cut before pieces tokens) {s : Segment} (hs : s ∈ pieces) : ∃ rest, s.Stands rest := by
  induction h with
  | done => simp at hs
  | skip hfirst _ _ ih | lexeme hfirst _ _ ih =>
    cases hs with
    | head => exact ⟨_, hfirst⟩
    | tail _ hs => exact ih hs

/-- What is left of a number without its underscores are digits, and at least one. -/
theorem NumberAt.decimal {text before lexeme : List Char} (h : NumberAt text before lexeme) :
    ∃ value, Decimal (bareDigits lexeme) value := by
  obtain ⟨front, back, tokens, hcut, -, -⟩ := h
  obtain ⟨rest, hstands⟩ := hcut.stands_of_mem (s := .number lexeme) (by simp)
  cases hstands with
  | @number c digits _ hc hdigits _ =>
    have hpart : ∀ d ∈ c :: digits, isNumberPart d := by
      rw [List.forall_mem_cons, isNumberPart, hc, Bool.true_or]
      exact ⟨rfl, hdigits⟩
    refine ⟨_, ?_, ?_, rfl⟩
    · intro hnil
      have hunderscore : ∀ d ∈ c :: digits, d = '_' := by
        simpa [bareDigits, List.filter_eq_nil_iff] using hnil
      rw [hunderscore c List.mem_cons_self] at hc
      cases hc
    · intro d hd
      simp only [bareDigits, List.mem_filter, bne_iff_ne] at hd
      have hdigit : isDigit d := by simpa [isNumberPart, hd.2] using hpart d hd.1
      exact Char.isDigit_iff_toNat.2 (isDigit_iff.1 hdigit)

/-! ## Operands -/

/-- The value of digits is taken as it is, if there is an integer for it. -/
theorem operandOf_number {m : Mnemonic} (hm : m = .op .push ∨ m = .op .popN) {digits : List Char}
    {value : Nat} (hvalue : Decimal digits value) (label : String) (q : Position) :
    (value ≤ 2147483647 → ∃ n : Int32, n.toInt = value ∧
      operandOf m label ⟨.number (String.ofList digits), q⟩ = .ok (.integer n)) ∧
    (2147483647 < value →
      operandOf m label ⟨.number (String.ofList digits), q⟩ =
        .error (.invalidNumber (String.ofList digits) q)) := by
  have hoperand : m.operand = .number := by obtain rfl | rfl := hm <;> rfl
  have hsigned : Numeral.signed? (String.ofList digits).toList >>= fit? = fit? (value : Int) := by
    rw [String.toList_ofList, hvalue.signed?]
    rfl
  have hmin : Int32.minValue.toInt = -2147483648 := rfl
  have hmax : Int32.maxValue.toInt = 2147483647 := rfl
  simp only [operandOf, hoperand, hsigned]
  constructor
  · intro hle
    have hfit : fit? (value : Int) = some (Int32.ofInt value) := if_pos ⟨by omega, by omega⟩
    exact ⟨_, toInt_of_fit? hfit, by rw [hfit]⟩
  · intro hlt
    have hfit : fit? (value : Int) = none := fit?_eq_none_iff.2 (.inr (by omega))
    rw [hfit]

theorem reject_ne_invalidNumber (label : String) (expected : Expected) (t : Token) (text : String)
    (q : Position) : reject label expected t ≠ .invalidNumber text q := by
  obtain ⟨kind, p⟩ := t
  cases kind <;> simp [reject]

theorem number_of_operandOf {m : Mnemonic} {label : String} {t : Token} {text : String}
    {q : Position} (h : operandOf m label t = .error (.invalidNumber text q)) :
    t = ⟨.number text, q⟩ ∧ Numeral.signed? text.toList >>= fit? = none := by
  obtain ⟨kind, p⟩ := t
  simp only [operandOf] at h
  split at h
  · split at h
    · cases h
    · next hnone =>
      cases h
      exact ⟨rfl, hnone⟩
  · exact absurd (Except.error.inj h) (reject_ne_invalidNumber _ _ _ _ _)
  · cases h
  · exact absurd (Except.error.inj h) (reject_ne_invalidNumber _ _ _ _ _)

/-- Only a number that stands as an operand is refused as a number. -/
theorem number_of_feed {r : Reading} {t : Token} {text : String} {q : Position}
    (h : r.feed t = .error (.invalidNumber text q)) :
    t = ⟨.number text, q⟩ ∧ Numeral.signed? text.toList >>= fit? = none := by
  cases r with
  | between finished =>
    simp only [feed] at h
    split at h <;> cases h
  | labelled label line around =>
    simp only [feed] at h
    split at h
    · cases h
    · exact absurd (Except.error.inj h) (reject_ne_invalidNumber _ _ _ _ _)
  | inside b around =>
    simp only [feed] at h
    split at h
    · cases h
    · split at h <;> cases h
    · cases h
    · exact absurd (Except.error.inj h) (reject_ne_invalidNumber _ _ _ _ _)
  | operand m p b around =>
    simp only [feed] at h
    cases hvalue : operandOf m b.label t with
    | ok v => rw [hvalue] at h; cases h
    | error e =>
      rw [hvalue] at h
      cases h
      exact number_of_operandOf hvalue
  | closing b around =>
    simp only [feed] at h
    split at h
    · split at h <;> cases h
    · exact absurd (Except.error.inj h) (reject_ne_invalidNumber _ _ _ _ _)

/-! ## Instructions that have been read -/

theorem mem_flattenAll {c : FlatBlock} {forest : List CodeBlock} :
    c ∈ flattenAll forest ↔ ∃ b ∈ forest, c ∈ b.flatten := by
  induction forest with
  | nil => simp [flattenAll]
  | cons b rest ih => simp [flattenAll, ih]

/-- The instructions of all blocks of a forest. -/
def CodeBlock.instructionsAll (forest : List CodeBlock) : List Instruction :=
  (flattenAll forest).flatMap FlatBlock.instructions

/-- The instructions of an open block and of the blocks nested in it. -/
def OpenBlock.within (b : OpenBlock) : List Instruction :=
  b.instructions ++ instructionsAll b.blocks

def Around.within (around : Around) : List Instruction :=
  instructionsAll around.finished ++ around.enclosing.flatMap OpenBlock.within

/-- All instructions that have been read so far, in no particular order. -/
def Reading.within : Reading → List Instruction
  | .between finished => instructionsAll finished
  | .labelled _ _ around => around.within
  | .inside b around | .operand _ _ b around | .closing b around => b.within ++ around.within

/-- The instruction that a token is the last one of. -/
def Reading.completed? (t : Token) : Reading → Option Instruction
  | .inside _ _ =>
    match t.kind with
    | .keyword .endBlock => none
    | .keyword m => if m.operand = .nothing then some ⟨m, none, t.position⟩ else none
    | _ => none
  | .operand m p b _ =>
    match operandOf m b.label t with
    | .ok v => some ⟨m, some v, p⟩
    | .error _ => none
  | _ => none

theorem completed?_keyword {m : Mnemonic} (hm : m ≠ .endBlock) (b : OpenBlock) (around : Around)
    (p : Position) :
    (Reading.inside b around).completed? ⟨.keyword m, p⟩ =
      if m.operand = .nothing then some ⟨m, none, p⟩ else none := by
  cases m with
  | endBlock => exact absurd rfl hm
  | op _ | mark => rfl

theorem mem_instructionsAll_close {i : Instruction} {b : OpenBlock} {forest : List CodeBlock} :
    i ∈ instructionsAll (b.close :: forest) ↔ i ∈ b.within ∨ i ∈ instructionsAll forest := by
  simp [instructionsAll, OpenBlock.within, OpenBlock.close, flattenAll, flatten, mem_flattenAll,
    or_assoc]

theorem mem_within_addInstruction {i j : Instruction} {b : OpenBlock} :
    i ∈ (b.addInstruction j).within ↔ i ∈ b.within ∨ i = j := by
  simp only [OpenBlock.within, OpenBlock.addInstruction, List.mem_append, List.mem_cons]
  tauto

theorem mem_within_close {i : Instruction} {b : OpenBlock} {around : Around} :
    i ∈ (close b around).within ↔ i ∈ b.within ∨ i ∈ around.within := by
  obtain ⟨finished, enclosing⟩ := around
  cases enclosing with
  | nil => simp [close, Reading.within, Around.within, mem_instructionsAll_close]
  | cons outer enclosing =>
    simp only [close, Reading.within, Around.within, OpenBlock.within, OpenBlock.addBlock,
      List.mem_append, mem_instructionsAll_close, List.flatMap_cons]
    tauto

/-- A token adds the instruction that it completes, and takes none away. -/
theorem mem_within_of_feed {r r' : Reading} {t : Token} (h : r.feed t = .ok r') (i : Instruction) :
    i ∈ r'.within ↔ i ∈ r.within ∨ r.completed? t = some i := by
  -- A label opens a block and the end of a block closes one: both only move instructions to another
  -- place.  A keyword without an operand and an operand complete an instruction.
  obtain ⟨kind, position⟩ := t
  cases r with
  | between finished =>
    simp only [feed] at h
    split at h
    · cases h
      simp [Reading.within, Around.within, completed?]
    · cases h
      simp [completed?]
    · cases h
  | labelled label line around =>
    simp only [feed] at h
    split at h
    · cases h
      simp [Reading.within, OpenBlock.within, OpenBlock.start, instructionsAll, flattenAll,
        completed?]
    · cases h
  | inside b around =>
    simp only [feed] at h
    split at h
    · cases h
      simp [Reading.within, completed?]
    · next m hend =>
      have hcompleted := completed?_keyword hend b around position
      split at h
      · next hm =>
        cases h
        rw [hcompleted, if_pos hm]
        simp only [Reading.within, List.mem_append, mem_within_addInstruction, Option.some.injEq,
          eq_comm (a := i)]
        tauto
      · next hm =>
        cases h
        rw [hcompleted, if_neg hm]
        simp [Reading.within]
    · cases h
      simp only [Reading.within, Around.within, List.mem_append, List.flatMap_cons, completed?]
      tauto
    · cases h
  | operand m p b around =>
    simp only [feed] at h
    cases hvalue : operandOf m b.label ⟨kind, position⟩ with
    | error e => rw [hvalue] at h; cases h
    | ok v =>
      rw [hvalue] at h
      cases h
      simp only [Reading.within, List.mem_append, mem_within_addInstruction, completed?, hvalue,
        Option.some.injEq, eq_comm (a := i)]
      tauto
  | closing b around =>
    simp only [feed] at h
    split at h
    · split at h
      · cases h
        rw [mem_within_close]
        simp [Reading.within, completed?]
      · cases h
    · cases h

theorem Reading.Feeds.within {r r' : Reading} {ts : List Token} (h : Feeds r ts r') :
    r.within ⊆ r'.within := by
  induction h with
  | nil => exact List.Subset.refl _
  | cons hfirst _ ih =>
    intro i hi
    exact ih ((mem_within_of_feed hfirst i).2 (.inl hi))

/-- What holds of every instruction that one of the tokens completes holds of all that are read. -/
theorem Reading.Feeds.forall_within {P : Instruction → Prop} {r r' : Reading} {ts : List Token}
    (h : Feeds r ts r') (hnew : ∀ t ∈ ts, ∀ mid i, completed? t mid = some i → P i)
    (hr : ∀ i ∈ r.within, P i) : ∀ i ∈ r'.within, P i := by
  induction h with
  | nil => exact hr
  | @cons r mid r' t ts hfirst _ ih =>
    rw [List.forall_mem_cons] at hnew
    refine ih hnew.2 ?_
    intro i hi
    cases (mem_within_of_feed hfirst i).1 hi with
    | inl hold => exact hr i hold
    | inr hcompleted => exact hnew.1 r i hcompleted

theorem mem_within_of_finish {r : Reading} {forest : List CodeBlock} (h : r.finish = .ok forest)
    (i : Instruction) : i ∈ instructionsAll forest ↔ i ∈ r.within := by
  cases r with
  | between finished =>
    cases h
    simp [Reading.within, instructionsAll, mem_flattenAll]
  | labelled _ _ _ | inside _ _ | operand _ _ _ _ | closing _ _ => cases h

/-! ## Attempts -/

/-- Reading fails at the first token that is refused. -/
theorem run_of_feeds {r r' : Reading} {used rest : List Token} {t : Token} {e : ReadError}
    (h : Feeds r used r') (he : r'.feed t = .error e) :
    r.run (used ++ t :: rest) = (.error e, rest) := by
  induction h with
  | nil => rw [List.nil_append, run, he]
  | cons hfirst _ ih => rw [List.cons_append, run, hfirst]; exact ih he

theorem unread_suffix (r : Reading) (ts : List Token) : (r.run ts).2 <:+ ts := by
  induction ts generalizing r with
  | nil => exact List.suffix_refl _
  | cons t ts ih =>
    rw [run]
    cases r.feed t with
    | error e => exact List.suffix_cons t ts
    | ok r' => exact (ih r').trans (List.suffix_cons t ts)

/-- The reader after a number of attempts. -/
def Reader.later (r : Reader) : Nat → Reader
  | 0 => r
  | attempts + 1 => r.readTree.2.later attempts

theorem Reader.later_suffix (r : Reader) (attempts : Nat) :
    (r.later attempts).unread <:+ r.unread := by
  induction attempts generalizing r with
  | zero => exact List.suffix_refl _
  | succ attempts ih => exact (ih r.readTree.2).trans (unread_suffix .start r.unread)

/-! ## Numbers in a source text -/

section Literal

variable {reader : Reader} {used rest : List Token} {t : Token} {m : Mnemonic} {p : Position}
  {b : OpenBlock} {around : Around}

theorem feed_operand {v : Value} (h : operandOf m b.label t = .ok v) :
    (Reading.operand m p b around).feed t =
      .ok (.inside (b.addInstruction ⟨m, some v, p⟩) around) := by
  simp only [feed, h]
  rfl

/-- An instruction that an attempt has completed is there when the attempt succeeds. -/
theorem mem_of_readTree {i : Instruction} {forest : List CodeBlock}
    (hunread : reader.unread = used ++ t :: rest)
    (hfeeds : Feeds .start (used ++ [t]) (.inside (b.addInstruction i) around))
    (hread : reader.readTree.1 = .ok forest) : ∃ c ∈ flattenAll forest, i ∈ c.instructions := by
  obtain ⟨r, hall, hfinish⟩ := run_eq_ok.1 hread
  rw [hunread, List.append_cons] at hall
  -- The attempt passes through the state behind the instruction, and loses nothing after it.
  obtain ⟨mid, hfront, hback⟩ := hall.split
  obtain rfl := hfeeds.unique hfront
  have hi : i ∈ (Reading.inside (b.addInstruction i) around).within :=
    List.mem_append_left _ (mem_within_addInstruction.2 (.inr rfl))
  exact List.mem_flatMap.1 ((mem_within_of_finish hfinish i).2 (hback.within hi))

theorem readTree_of_feeds {r : Reading} {e : ReadError}
    (hunread : reader.unread = used ++ t :: rest) (hfeeds : Feeds .start used r)
    (he : r.feed t = .error e) :
    reader.readTree = (.error e, ⟨rest⟩) ∧ reader.readFlat = (.error e, ⟨rest⟩) := by
  have hrun : Reading.start.run reader.unread = (.error e, rest) := by
    rw [hunread]
    exact run_of_feeds hfeeds he
  have hread : reader.readTree = (.error e, ⟨rest⟩) := by rw [Reader.readTree, hrun]
  refine ⟨hread, ?_⟩
  rw [Reader.readFlat, hread]
  rfl

end Literal

theorem number_of_operandOf_ok {m : Mnemonic} {label : String} {t : Token} {n : Int32}
    (h : operandOf m label t = .ok (.integer n)) :
    ∃ text, t.kind = .number text ∧ Numeral.signed? text.toList = some n.toInt := by
  obtain ⟨kind, p⟩ := t
  simp only [operandOf] at h
  split at h
  · next text _ =>
    split at h
    · next hn =>
      cases h
      exact ⟨text, rfl, signed?_eq_some.2 (number_eq_some.1 hn)⟩
    · cases h
  · cases h
  · cases h
  · cases h

/-- An integer operand is the value of a number among the tokens. -/
theorem number_of_completed? {r : Reading} {t : Token} {i : Instruction} {n : Int32}
    (h : r.completed? t = some i) (hn : i.operand = some (.integer n)) :
    ∃ text, t.kind = .number text ∧ Numeral.signed? text.toList = some n.toInt := by
  cases r with
  | between _ | labelled _ _ _ | closing _ _ => cases h
  | inside b around =>
    simp only [completed?] at h
    split at h
    · cases h
    · split at h
      · cases h
        cases hn
      · cases h
    · cases h
  | operand m p b around =>
    simp only [completed?] at h
    split at h
    · next v hv =>
      cases h
      cases hn
      exact number_of_operandOf_ok hv
    · cases h

section Source

variable {source : String} {reader : Reader}

/-- What is still to be read comes from the source text. -/
def Reader.ReadsFrom (source : String) (reader : Reader) : Prop :=
  reader.unread ⊆ (Scan.ofString source).tokenize.1

theorem readsFrom_later (source : String) (attempts : Nat) :
    ((Reader.ofTokens (Scan.ofString source).tokenize.1).later attempts).ReadsFrom source :=
  List.Subset.trans (Reader.later_suffix _ attempts).subset (List.takeWhile_sublist _).subset

/-- A number that is read is one of the text, and it has no sign. -/
theorem Reader.ReadsFrom.number {t : Token} {text : String} (h : reader.ReadsFrom source)
    (ht : t ∈ reader.unread) (hkind : t.kind = .number text) :
    ∃ before lexeme value, NumberAt source.toList before lexeme ∧
      text = String.ofList (bareDigits lexeme) ∧ t.position = .behind before ∧
      Decimal (bareDigits lexeme) value ∧ Numeral.signed? text.toList = some (value : Int) := by
  obtain ⟨kind, q⟩ := t
  obtain rfl : kind = .number text := hkind
  obtain ⟨before, lexeme, hat, rfl, hq⟩ := mem_tokenize_number.1 (h ht)
  obtain ⟨value, hvalue⟩ := hat.decimal
  refine ⟨before, lexeme, value, hat, rfl, hq, hvalue, ?_⟩
  rw [String.toList_ofList]
  exact hvalue.signed?

theorem operands_nonneg (h : reader.ReadsFrom source) {forest : List CodeBlock}
    (hread : reader.readTree.1 = .ok forest) :
    ∀ c ∈ flattenAll forest, ∀ i ∈ c.instructions, ∀ n : Int32,
      i.operand = some (.integer n) → 0 ≤ n.toInt := by
  obtain ⟨r, hfeeds, hfinish⟩ := run_eq_ok.1 hread
  have hall := hfeeds.forall_within
    (P := fun i => ∀ n : Int32, i.operand = some (.integer n) → 0 ≤ n.toInt) ?_
    (by simp [start, Reading.within, instructionsAll, flattenAll])
  · intro c hc i hi
    exact hall i ((mem_within_of_finish hfinish i).1 (List.mem_flatMap.2 ⟨c, hc, hi⟩))
  · -- An integer among the operands is the value of a number of the text, which has no sign.
    intro t ht mid i hi n hn
    obtain ⟨text, hkind, hsigned⟩ := number_of_completed? hi hn
    obtain ⟨_, _, value, _, _, _, _, hvalue⟩ := h.number ht hkind
    have hsame : n.toInt = value := Option.some.inj (hsigned.symm.trans hvalue)
    omega

theorem value_of_invalidNumber (h : reader.ReadsFrom source) {text : String} {q : Position}
    (hread : reader.readTree.1 = .error (.invalidNumber text q)) :
    ∃ before lexeme value, NumberAt source.toList before lexeme ∧
      text = String.ofList (bareDigits lexeme) ∧ q = .behind before ∧
      Decimal (bareDigits lexeme) value ∧ 2147483647 < value := by
  have hrun : Reading.start.run reader.unread = (.error (.invalidNumber text q),
      (Reading.start.run reader.unread).2) := Prod.ext hread rfl
  obtain ⟨r, _, hfinish⟩ | ⟨used, t, r, hunread, _, herror⟩ := run_eq_error hrun
  · -- At the end of the tokens the complaint is about an open block.
    obtain ⟨label, hlabel, _⟩ := finish_eq_error hfinish
    cases hlabel
  · obtain ⟨rfl, hnone⟩ := number_of_feed herror
    have ht : ⟨.number text, q⟩ ∈ reader.unread := by
      rw [hunread]
      exact List.mem_append_right _ List.mem_cons_self
    obtain ⟨before, lexeme, value, hat, htext, hq, hvalue, hsigned⟩ := h.number ht rfl
    refine ⟨before, lexeme, value, hat, htext, hq, hvalue, ?_⟩
    have hmin : Int32.minValue.toInt = -2147483648 := rfl
    have hmax : Int32.maxValue.toInt = 2147483647 := rfl
    have hfit : fit? (value : Int) = none := by rw [hsigned] at hnone; exact hnone
    have := fit?_eq_none_iff.1 hfit
    omega

end Source

/-- A number in a source text means the value of its digits, without the underscores, in base ten.
Wherever a reader of the text finds it behind `PUSH` or `POP_N`, in the first attempt or in a later
one, the instruction gets this value as its operand, if there is an integer for it, and otherwise
the attempt fails with the digits and the position of the number.  So no operand is negative, and
no number is refused but for its value. -/
theorem number_literals_mean_their_value (source : String) (attempts : Nat) :
    let tokens := (Scan.ofString source).tokenize.1
    let reader := (Reader.ofTokens tokens).later attempts
    (∀ before lexeme, NumberAt source.toList before lexeme →
      let digits := String.ofList (bareDigits lexeme)
      let t : Token := ⟨.number digits, .behind before⟩
      t ∈ tokens ∧ ∃ value, Decimal (bareDigits lexeme) value ∧
        ∀ used rest m p b around, reader.unread = used ++ t :: rest →
          Feeds .start used (.operand m p b around) → m = .op .push ∨ m = .op .popN →
          (value ≤ 2147483647 → ∃ n : Int32, n.toInt = value ∧
            let i : Instruction := ⟨m, some (.integer n), p⟩
            Feeds .start (used ++ [t]) (.inside (b.addInstruction i) around) ∧
            ∀ forest, reader.readTree.1 = .ok forest →
              ∃ c ∈ flattenAll forest, i ∈ c.instructions) ∧
          (2147483647 < value →
            reader.readTree = (.error (.invalidNumber digits (.behind before)), ⟨rest⟩) ∧
            reader.readFlat = (.error (.invalidNumber digits (.behind before)), ⟨rest⟩))) ∧
    (∀ forest, reader.readTree.1 = .ok forest →
      ∀ c ∈ flattenAll forest, ∀ i ∈ c.instructions, ∀ n : Int32,
        i.operand = some (.integer n) → 0 ≤ n.toInt) ∧
    (∀ text q, reader.readTree.1 = .error (.invalidNumber text q) →
      ∃ before lexeme value, NumberAt source.toList before lexeme ∧
        text = String.ofList (bareDigits lexeme) ∧ q = .behind before ∧
        Decimal (bareDigits lexeme) value ∧ 2147483647 < value) := by
  intro tokens reader
  have hsource : reader.ReadsFrom source := readsFrom_later source attempts
  refine ⟨?_, fun _ => operands_nonneg hsource, fun _ _ => value_of_invalidNumber hsource⟩
  intro before lexeme hat digits t
  obtain ⟨value, hvalue⟩ := hat.decimal
  refine ⟨mem_tokenize_number.2 ⟨before, lexeme, hat, rfl, rfl⟩, value, hvalue, ?_⟩
  intro used rest m p b around hunread hfeeds hm
  obtain ⟨hsmall, hlarge⟩ := operandOf_number hm hvalue b.label (.behind before)
  constructor
  · intro hle
    obtain ⟨n, hn, hoperand⟩ := hsmall hle
    have hfed := hfeeds.append (.cons (feed_operand hoperand) .nil)
    exact ⟨n, hn, hfed, fun forest => mem_of_readTree hunread hfed⟩
  · intro hlt
    have herror : (Reading.operand m p b around).feed t =
        .error (.invalidNumber digits (.behind before)) := by
      simp only [feed, t, digits, hlarge hlt]
      rfl
    exact readTree_of_feeds hunread hfeeds herror

/-- A number with a leading zero, and behind it one that is just too large. -/
theorem number_literals_mean_their_value_too_large :
    let source := "a: PUSH 0_7_ POP_N 2_147_483_648 RET"
    let reader := Reader.ofTokens (Scan.ofString source).tokenize.1
    let push : Position := ⟨1, 4⟩
    let seven : Token := ⟨.number "07", ⟨1, 9⟩⟩
    let large : Token := ⟨.number "2147483648", ⟨1, 20⟩⟩
    let front : List Token :=
      [⟨.identifier "a", ⟨1, 1⟩⟩, ⟨.colon, ⟨1, 2⟩⟩, ⟨.keyword (.op .push), push⟩]
    let back : List Token := [⟨.keyword (.op .ret), ⟨1, 34⟩⟩]
    let read : OpenBlock := ⟨"a", 1, [⟨.op .push, some (.integer 7), push⟩], []⟩
    NumberAt source.toList "a: PUSH ".toList "0_7_".toList ∧
      NumberAt source.toList "a: PUSH 0_7_ POP_N ".toList "2_147_483_648".toList ∧
      reader.unread = front ++ seven :: ⟨.keyword (.op .popN), ⟨1, 14⟩⟩ :: large :: back ∧
      Feeds .start (front ++ [seven]) (.inside read ⟨[], []⟩) ∧
      reader.readTree = (.error (.invalidNumber "2147483648" ⟨1, 20⟩), ⟨back⟩) := by
  intro source reader push seven large front back read
  have hseven : NumberAt source.toList "a: PUSH ".toList "0_7_".toList :=
    numberAt_iff.2 ⟨(segments source.toList).take 5, (segments source.toList).drop 6,
      by decide +kernel, by decide +kernel⟩
  have hlarge : NumberAt source.toList "a: PUSH 0_7_ POP_N ".toList "2_147_483_648".toList :=
    numberAt_iff.2 ⟨(segments source.toList).take 9, (segments source.toList).drop 10,
      by decide +kernel, by decide +kernel⟩
  have hunread : reader.unread =
      front ++ seven :: ⟨.keyword (.op .popN), ⟨1, 14⟩⟩ :: large :: back := by decide +kernel
  have hpush : Feeds .start front (.operand (.op .push) push (.start "a" 1) ⟨[], []⟩) :=
    .cons rfl (.cons rfl (.cons rfl .nil))
  obtain ⟨hliteral, -, -⟩ := number_literals_mean_their_value source 0
  obtain ⟨-, value, hvalue, hread⟩ := hliteral _ _ hseven
  obtain rfl : value = 7 := hvalue.2.2.trans (by decide +kernel)
  obtain ⟨n, hn, hfed, -⟩ :=
    (hread front _ _ push _ _ hunread hpush (.inl rfl)).1 (by decide)
  obtain rfl : n = 7 := Int32.toInt_inj.1 hn
  refine ⟨hseven, hlarge, hunread, hfed, ?_⟩
  obtain ⟨-, value, hvalue, hread⟩ := hliteral _ _ hlarge
  obtain rfl : value = 2147483648 := hvalue.2.2.trans (by decide +kernel)
  let used := front ++ [seven] ++ [⟨.keyword (.op .popN), ⟨1, 14⟩⟩]
  have hpopN : Feeds .start used (.operand (.op .popN) ⟨1, 14⟩ read ⟨[], []⟩) :=
    hfed.append (.cons rfl .nil)
  exact ((hread used back _ _ _ _ hunread hpopN (.inr rfl)).2 (by decide)).1

end BlockMachine
