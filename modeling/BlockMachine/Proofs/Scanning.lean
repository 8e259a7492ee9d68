import BlockMachine.Source.Scan

/-! # What a text is cut into

The segments of a text follow from its front alone: a word or a number is taken whole as soon as
what stands behind it cannot belong to it.  So a text that is put together from words, numbers,
colons and blanks is cut where it was put together.

* `Mnemonic.ofWord?_eq_some`, `Mnemonic.ofWord?_eq_none` — words that are keywords, and others;
* `segments_blank`, `segments_colon`, `segments_number`, `segments_word` — the segment at the front
  of a text;
* `Spells` — the tokens of a text none of whose characters is rejected;
* `Writes` — a text that has its tokens in front of any other that breaks it off.
-/

namespace BlockMachine

open Character

/-! ## Classes of characters -/

theorem isDigit_iff {c : Char} : isDigit c ↔ 48 ≤ c.toNat ∧ c.toNat ≤ 57 := by
  simp only [isDigit, Bool.and_eq_true, decide_eq_true_eq]
  exact Iff.rfl

theorem isWordStart_iff {c : Char} :
    isWordStart c ↔ (97 ≤ c.toNat ∧ c.toNat ≤ 122) ∨ (65 ≤ c.toNat ∧ c.toNat ≤ 90) ∨ c = '_' := by
  simp only [isWordStart, Bool.or_eq_true, Bool.and_eq_true, decide_eq_true_eq, beq_iff_eq,
    or_assoc]
  exact Iff.rfl

/-- No blank is an ASCII character that can be seen. -/
theorem not_isBlank {c : Char} (h : 0x20 < c.toNat) (h' : c.toNat < 0x7f) : isBlank c = false := by
  rw [isBlank, List.any_eq_false]
  intro range hrange
  have hout : range.2 < c.toNat ∨ c.toNat < range.1 := by
    simp only [blankRanges, List.mem_cons, List.not_mem_nil, or_false] at hrange
    obtain rfl | rfl | rfl | rfl | rfl | rfl | rfl | rfl | rfl | rfl := hrange
    all_goals
      simp only
      omega
  simp only [Bool.and_eq_true, decide_eq_true_eq, not_and]
  omega

theorem isWordStart_visible {c : Char} (h : isWordStart c) : 58 < c.toNat ∧ c.toNat < 0x7f := by
  rw [isWordStart_iff] at h
  obtain h | h | rfl := h
  · omega
  · omega
  · decide

theorem isWordPart_of_isNumberPart {c : Char} (h : isNumberPart c) : isWordPart c := by
  rw [isNumberPart, Bool.or_eq_true, beq_iff_eq] at h
  rw [isWordPart, Bool.or_eq_true]
  obtain h | rfl := h
  · exact .inr h
  · exact .inl (by decide)

/-! ## Keywords -/

namespace Mnemonic

theorem mem_all (m : Mnemonic) : m ∈ all := by
  rcases m with
    ((_ | _ | _ | _ | (_ | _ | _) | (_ | _ | _ | _ | (_ | _ | _ | _) | (_ | _ | _) | _)) | _ | _)
    <;> decide

theorem ofWord?_eq_none {word : String} :
    ofWord? word = none ↔ ∀ m : Mnemonic, m.text ≠ word.toUpper := by
  simp [ofWord?, List.find?_eq_none, mem_all]

theorem ofWord?_eq_some {word : String} {m : Mnemonic} :
    ofWord? word = some m ↔ m.text = word.toUpper := by
  constructor
  · intro h
    simpa using List.find?_some h
  · intro h
    -- No two keywords have the same text.
    have hfound : ∀ m ∈ all, all.find? (fun other => other.text == m.text) = some m := by
      decide +kernel
    rw [ofWord?, ← h]
    exact hfound m m.mem_all

end Mnemonic

/-! ## The segment at the front -/

namespace Segment

theorem first_blank {c : Char} (h : isBlank c) (rest : List Char) : first c rest = .blank c :=
  if_pos h

theorem first_number {c : Char} (h : isDigit c) (rest : List Char) :
    first c rest = .number (c :: rest.takeWhile isNumberPart) := by
  have hrange := isDigit_iff.1 h
  have hblank : isBlank c = false := not_isBlank (by omega) (by omega)
  have hsemicolon : c ≠ ';' := by rintro rfl; revert hrange; decide
  have hcolon : c ≠ ':' := by rintro rfl; revert hrange; decide
  rw [first, hblank, if_neg Bool.false_ne_true, if_neg hsemicolon, if_neg hcolon, if_pos h]

theorem first_word {c : Char} (h : isWordStart c) (rest : List Char) :
    first c rest = .word (c :: rest.takeWhile isWordPart) := by
  have hrange := isWordStart_visible h
  have hblank : isBlank c = false := not_isBlank (by omega) (by omega)
  have hsemicolon : c ≠ ';' := by rintro rfl; exact absurd h (by decide)
  have hcolon : c ≠ ':' := by rintro rfl; exact absurd h (by decide)
  have hdigit : ¬ isDigit c := by
    rw [isDigit_iff]
    omega
  rw [first, hblank, if_neg Bool.false_ne_true, if_neg hsemicolon, if_neg hcolon, if_neg hdigit,
    if_pos h]

end Segment

/-- A word or a number that stands in front of this text ends there. -/
def BreaksOff (text : List Char) : Prop :=
  ∀ c ∈ text.head?, isWordPart c = false

theorem breaksOff_nil : BreaksOff [] := nofun

theorem breaksOff_cons {c : Char} (h : isWordPart c = false) (rest : List Char) :
    BreaksOff (c :: rest) := by
  intro d hd
  obtain rfl : c = d := by simpa using hd
  exact h

/-- A run of characters is taken whole in front of a text that does not go on with it. -/
theorem takeWhile_append_of_head {p : Char → Bool} {run rest : List Char}
    (hrun : ∀ c ∈ run, p c) (hrest : ∀ c ∈ rest.head?, p c = false) :
    (run ++ rest).takeWhile p = run := by
  rw [List.takeWhile_append_of_pos hrun]
  cases rest with
  | nil => simp
  | cons c rest => simp [hrest c rfl]

theorem takeWhile_append_of_breaksOff {p : Char → Bool} {run rest : List Char}
    (hp : ∀ c, p c → isWordPart c) (hrun : ∀ c ∈ run, p c) (hrest : BreaksOff rest) :
    (run ++ rest).takeWhile p = run := by
  refine takeWhile_append_of_head hrun ?_
  intro c hc
  rw [← Bool.not_eq_true]
  intro h
  simpa [hrest c hc] using hp c h

theorem segments_blank {c : Char} (h : isBlank c) (rest : List Char) :
    segments (c :: rest) = .blank c :: segments rest := by
  rw [segments, Segment.first_blank h]
  rfl

theorem segments_colon (rest : List Char) : segments (':' :: rest) = .colon :: segments rest := by
  rw [segments]
  rfl

theorem segments_number {c : Char} {digits rest : List Char} (hc : isDigit c)
    (hdigits : ∀ d ∈ digits, isNumberPart d) (hrest : BreaksOff rest) :
    segments (c :: digits ++ rest) = .number (c :: digits) :: segments rest := by
  rw [List.cons_append, segments, Segment.first_number hc,
    takeWhile_append_of_breaksOff (fun _ => isWordPart_of_isNumberPart) hdigits hrest]
  simp [Segment.text]

theorem segments_word {c : Char} {word rest : List Char} (hc : isWordStart c)
    (hword : ∀ d ∈ word, isWordPart d) (hrest : BreaksOff rest) :
    segments (c :: word ++ rest) = .word (c :: word) :: segments rest := by
  rw [List.cons_append, segments, Segment.first_word hc,
    takeWhile_append_of_breaksOff (fun _ => id) hword hrest]
  simp [Segment.text]

/-! ## The tokens of a text -/

/-- None of the characters of a text is rejected, and these are the kinds of its tokens. -/
def Spells (text : List Char) (kinds : List TokenKind) : Prop :=
  (segments text).filterMap Segment.token? = kinds ∧ ∀ c, .rejected c ∉ segments text

theorem spells_nil : Spells [] [] := by
  simp [Spells, segments]

theorem located_segments (p : Position) (ss : List Segment) :
    (located p ss).map Prod.snd = ss := by
  induction ss generalizing p with
  | nil => rfl
  | cons s rest ih => rw [located, List.map_cons, ih]

/-- Positions apart, the tokens of a scan are those of its segments. -/
theorem Scan.kinds_tokens (s : Scan) :
    s.tokens.map Token.kind = (segments s.unread).filterMap Segment.token? ++ [.eof] := by
  have hsegments : s.parts.map Prod.snd = segments s.unread := located_segments _ _
  rw [tokens, List.map_append, List.map_filterMap, ← hsegments, List.filterMap_map]
  congr 2
  funext ⟨p, segment⟩
  simp [Option.map_map, Function.comp_def]

theorem rejectionsOf_eq_nil {pieces : List Segment} (h : ∀ c, .rejected c ∉ pieces)
    (source : List Char) (cursor : Nat) (p : Position) :
    rejectionsOf source cursor p pieces = [] := by
  induction pieces generalizing cursor p with
  | nil => rfl
  | cons s rest ih =>
    have hnone : s.rejection? source cursor p = none := by
      cases s with
      | rejected c => exact absurd List.mem_cons_self (h c)
      | _ => rfl
    rw [rejectionsOf, hnone, ih fun c hc => h c (List.mem_cons_of_mem s hc)]
    rfl

/-- Scanning a text that spells tokens gives them and has nothing to complain about. -/
theorem Spells.tokenize {text : String} {kinds : List TokenKind} (h : Spells text.toList kinds) :
    (Scan.ofString text).tokenize.2.isClean ∧ ∃ tokens p,
      (Scan.ofString text).tokenize.1 = tokens ++ [⟨.eof, p⟩] ∧ tokens.map Token.kind = kinds := by
  obtain ⟨hkinds, hclean⟩ := h
  constructor
  · have hnone : (Scan.ofString text).newRejections = [] := rejectionsOf_eq_nil hclean _ _ _
    rw [Scan.tokenize, Scan.isClean, hnone]
    rfl
  · have hscan := (Scan.ofString text).kinds_tokens
    rw [show (Scan.ofString text).unread = text.toList from rfl, hkinds] at hscan
    refine ⟨_, _, rfl, ?_⟩
    rw [Scan.tokens, List.map_append] at hscan
    exact List.append_cancel_right hscan

/-! ## Texts that keep their tokens -/

/-- A text that has its tokens in front of any other that breaks it off. -/
def Writes (text : List Char) (kinds : List TokenKind) : Prop :=
  ∀ rest more, BreaksOff rest → Spells rest more → Spells (text ++ rest) (kinds ++ more)

namespace Writes

theorem spells {text : List Char} {kinds : List TokenKind} (h : Writes text kinds) :
    Spells text kinds := by
  simpa using h [] [] breaksOff_nil spells_nil

theorem nil : Writes [] [] :=
  fun _ _ _ h => h

/-- A segment with a token stands in front of what is spelled behind it. -/
theorem of_segment {text : List Char} {s : Segment} {kind : TokenKind}
    (hs : s.token? = some kind)
    (h : ∀ rest, BreaksOff rest → segments (text ++ rest) = s :: segments rest) :
    Writes text [kind] := by
  intro rest more hrest hspells
  refine ⟨?_, ?_⟩
  · rw [h rest hrest, List.filterMap_cons, hs, hspells.1]
    rfl
  · intro c hc
    rw [h rest hrest, List.mem_cons] at hc
    obtain rfl | hc := hc
    · cases hs
    · exact hspells.2 c hc

theorem colon : Writes [':'] [.colon] :=
  of_segment rfl fun rest _ => segments_colon rest

theorem blank {c : Char} {text : List Char} {kinds : List TokenKind} (hc : isBlank c)
    (h : Writes text kinds) : Writes (c :: text) kinds := by
  intro rest more hrest hspells
  obtain ⟨hkinds, hclean⟩ := h rest more hrest hspells
  rw [List.cons_append, Spells, segments_blank hc]
  exact ⟨hkinds, by simpa using hclean⟩

/-- Behind a text may stand another that breaks it off. -/
theorem append_cons {text other : List Char} {kinds others : List TokenKind} {c : Char}
    (hc : isWordPart c = false) (h : Writes text kinds) (hother : Writes (c :: other) others) :
    Writes (text ++ c :: other) (kinds ++ others) := by
  intro rest more hrest hspells
  rw [List.append_assoc, List.append_assoc]
  exact h _ _ (breaksOff_cons hc _) (hother rest more hrest hspells)

end Writes

end BlockMachine
