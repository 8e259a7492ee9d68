import BlockMachine.Proofs.Scanning
import Mathlib.Data.List.Induction

/-! # What the tokens of a text are

A text falls into segments that follow each other without gaps.  Which segments these are is said
here by what each of them looks like and by the character behind it; how a scan finds them has no
part in it.  Neither has the position that a scan keeps: the position of a token follows from the
text in front of it.

* `Position.behind` — the position behind a text;
* `Segment.Stands` — a segment stands in front of a text, and could not go on in it;
* `Segment.Denotes` — the kind of token that a segment is the lexeme of;
* `Cut` — segments that follow each other, and the tokens of the lexemes among them;
* `tokenize_iff_cut` — the tokens that a scan gives are those of the one cut that the text has.
-/

namespace BlockMachine

open Character

/-! ## Positions -/

namespace Position

/-- One line more than there are newlines in the text, and one column more than there are characters
behind the last newline. -/
def behind (text : List Char) : Position :=
  ⟨1 + text.count '\n', 1 + (text.reverse.takeWhile (· != '\n')).length⟩

theorem start_after (text : List Char) : start.after text = behind text := by
  induction text using List.reverseRecOn with
  | nil => rfl
  | append_singleton text c ih =>
    rw [after_append, ih]
    -- A newline starts the columns anew, and any other character is one more behind the last one.
    show (behind text).next c = behind (text ++ [c])
    by_cases hc : c = '\n'
    · simp [next, behind, hc, Nat.add_assoc]
    · simp [next, behind, hc, Nat.add_comm]

theorem behind_after (before text : List Char) :
    (behind before).after text = behind (before ++ text) := by
  rw [← start_after, ← start_after, after_append]

end Position

/-! ## Segments by their looks -/

namespace Segment

inductive Stands : Segment → (rest : List Char) → Prop
  | blank {c : Char} {rest : List Char} (hc : isBlank c) : Stands (.blank c) rest
  /-- up to a newline or to the end of the text -/
  | comment {body rest : List Char} (hbody : '\n' ∉ body) (hend : ∀ d ∈ rest.head?, d = '\n') :
      Stands (.comment (';' :: body)) rest
  /-- a character that no other segment starts with -/
  | rejected {c : Char} {rest : List Char} (hblank : isBlank c = false) (hsemicolon : c ≠ ';')
      (hcolon : c ≠ ':') (hdigit : isDigit c = false) (hword : isWordStart c = false) :
      Stands (.rejected c) rest
  | colon {rest : List Char} : Stands .colon rest
  | number {c : Char} {digits rest : List Char} (hc : isDigit c)
      (hdigits : ∀ d ∈ digits, isNumberPart d) (hend : ∀ d ∈ rest.head?, isNumberPart d = false) :
      Stands (.number (c :: digits)) rest
  | word {c : Char} {parts rest : List Char} (hc : isWordStart c)
      (hparts : ∀ d ∈ parts, isWordPart d) (hend : ∀ d ∈ rest.head?, isWordPart d = false) :
      Stands (.word (c :: parts)) rest

def isLexeme : Segment → Bool
  | blank _ | comment _ | rejected _ => false
  | colon | number _ | word _ => true

/-- A word is a keyword when it is the text of one in capital letters, and a name otherwise. -/
inductive Denotes : Segment → TokenKind → Prop
  | colon : Denotes .colon .colon
  | number {lexeme : List Char} :
      Denotes (.number lexeme) (.number (String.ofList (lexeme.filter (· != '_'))))
  | keyword {lexeme : List Char} {m : Mnemonic} (h : m.text = (String.ofList lexeme).toUpper) :
      Denotes (.word lexeme) (.keyword m)
  | identifier {lexeme : List Char}
      (h : ∀ m : Mnemonic, m.text ≠ (String.ofList lexeme).toUpper) :
      Denotes (.word lexeme) (.identifier (String.ofList lexeme))

end Segment

/-- Segments behind the text `before`, and the tokens of the lexemes among them, closed by the end
of the text. -/
inductive Cut : (before : List Char) → List Segment → List Token → Prop
  | done {before : List Char} : Cut before [] [⟨.eof, .behind before⟩]
  | skip {before : List Char} {s : Segment} {rest : List Segment} {tokens : List Token}
      (hs : s.Stands (rest.flatMap Segment.text)) (hskip : s.isLexeme = false)
      (hrest : Cut (before ++ s.text) rest tokens) : Cut before (s :: rest) tokens
  | lexeme {before : List Char} {s : Segment} {kind : TokenKind} {rest : List Segment}
      {tokens : List Token} (hs : s.Stands (rest.flatMap Segment.text)) (hkind : s.Denotes kind)
      (hrest : Cut (before ++ s.text) rest tokens) :
      Cut before (s :: rest) (⟨kind, .behind before⟩ :: tokens)

/-! ## The segment at the front -/

theorem head?_dropWhile {p : Char → Bool} {text : List Char} :
    ∀ d ∈ (text.dropWhile p).head?, p d = false := by
  intro d hd
  have h := List.head?_dropWhile_not p text
  rw [Option.mem_def.1 hd] at h
  exact h

theorem drop_length_takeWhile (p : Char → Bool) (text : List Char) :
    text.drop (text.takeWhile p).length = text.dropWhile p := by
  have h := @List.drop_left _ (text.takeWhile p) (text.dropWhile p)
  rwa [List.takeWhile_append_dropWhile] at h

namespace Segment

theorem first_stands (c : Char) (rest : List Char) :
    (first c rest).Stands ((c :: rest).drop (first c rest).text.length) := by
  rw [first]
  by_cases hblank : isBlank c
  · rw [if_pos hblank]
    exact .blank hblank
  rw [if_neg hblank]
  by_cases hsemicolon : c = ';'
  · rw [if_pos hsemicolon, hsemicolon]
    show Stands _ (rest.drop (rest.takeWhile (· != '\n')).length)
    rw [drop_length_takeWhile]
    refine .comment ?_ ?_
    · intro hmem
      simpa using List.all_eq_true.1 List.all_takeWhile _ hmem
    · intro d hd
      simpa using head?_dropWhile d hd
  rw [if_neg hsemicolon]
  by_cases hcolon : c = ':'
  · rw [if_pos hcolon]
    exact .colon
  rw [if_neg hcolon]
  by_cases hdigit : isDigit c
  · rw [if_pos hdigit]
    show Stands _ (rest.drop (rest.takeWhile isNumberPart).length)
    rw [drop_length_takeWhile]
    exact .number hdigit (List.all_eq_true.1 List.all_takeWhile) head?_dropWhile
  rw [if_neg hdigit]
  by_cases hword : isWordStart c
  · rw [if_pos hword]
    show Stands _ (rest.drop (rest.takeWhile isWordPart).length)
    rw [drop_length_takeWhile]
    exact .word hword (List.all_eq_true.1 List.all_takeWhile) head?_dropWhile
  rw [if_neg hword]
  simp only [Bool.not_eq_true] at hblank hdigit hword
  exact .rejected hblank hsemicolon hcolon hdigit hword

theorem Stands.length_text_pos {s : Segment} {rest : List Char} (h : s.Stands rest) :
    0 < s.text.length := by
  cases h <;> simp [text]

/-- What stands in front of a text is the first segment of the two together. -/
theorem Stands.eq_first {s : Segment} {rest : List Char} (h : s.Stands rest) {c : Char}
    {text : List Char} (htext : s.text ++ rest = c :: text) : s = first c text := by
  cases h with
  | blank hc =>
    cases htext
    exact (first_blank hc _).symm
  | @comment body _ hbody hend =>
    cases htext
    have hrun : (body ++ rest).takeWhile (· != '\n') = body := by
      refine takeWhile_append_of_head ?_ ?_
      · intro d hd
        rw [bne_iff_ne]
        rintro rfl
        exact hbody hd
      · intro d hd
        simpa using hend d hd
    show _ = Segment.comment (';' :: (body ++ rest).takeWhile (· != '\n'))
    rw [hrun]
  | rejected hblank hsemicolon hcolon hdigit hword =>
    cases htext
    simp [first, hblank, hsemicolon, hcolon, hdigit, hword]
  | colon =>
    cases htext
    rfl
  | number hc hdigits hend =>
    rw [Segment.text, List.cons_append, List.cons.injEq] at htext
    obtain ⟨rfl, rfl⟩ := htext
    rw [first_number hc, takeWhile_append_of_head hdigits hend]
  | word hc hparts hend =>
    rw [Segment.text, List.cons_append, List.cons.injEq] at htext
    obtain ⟨rfl, rfl⟩ := htext
    rw [first_word hc, takeWhile_append_of_head hparts hend]

/-! ## The token of a segment -/

theorem token?_eq_none {s : Segment} : s.token? = none ↔ s.isLexeme = false := by
  cases s with
  | word lexeme =>
    simp only [token?, isLexeme]
    cases Mnemonic.ofWord? (String.ofList lexeme) <;> simp
  | _ => simp [token?, isLexeme]

theorem token?_eq_some {s : Segment} {kind : TokenKind} :
    s.token? = some kind ↔ s.Denotes kind := by
  constructor
  · intro h
    cases s with
    | colon =>
      cases h
      exact .colon
    | number lexeme =>
      cases h
      exact .number
    | word lexeme =>
      simp only [token?] at h
      cases hword : Mnemonic.ofWord? (String.ofList lexeme) with
      | none =>
        rw [hword] at h
        cases h
        exact .identifier (Mnemonic.ofWord?_eq_none.1 hword)
      | some m =>
        rw [hword] at h
        cases h
        exact .keyword (Mnemonic.ofWord?_eq_some.1 hword)
    | _ => cases h
  · intro h
    cases h with
    | colon => rfl
    | number => rfl
    | keyword h => simp [token?, Mnemonic.ofWord?_eq_some.2 h]
    | identifier h => simp [token?, Mnemonic.ofWord?_eq_none.2 h]

end Segment

/-- The tokens of segments that start at a position, closed by the end of the text. -/
def tokensOf (p : Position) (pieces : List Segment) : List Token :=
  (located p pieces).filterMap (fun place => place.2.token?.map (⟨·, place.1⟩)) ++
    [⟨.eof, p.after (pieces.flatMap Segment.text)⟩]

theorem Scan.tokens_eq (s : Scan) : s.tokens = tokensOf s.position (segments s.unread) := by
  rw [tokensOf, flatten_segments]
  rfl

theorem tokensOf_skip {s : Segment} (h : s.token? = none) (p : Position) (rest : List Segment) :
    tokensOf p (s :: rest) = tokensOf (p.after s.text) rest := by
  simp [tokensOf, located, h]

theorem tokensOf_lexeme {s : Segment} {kind : TokenKind} (h : s.token? = some kind) (p : Position)
    (rest : List Segment) :
    tokensOf p (s :: rest) = ⟨kind, p⟩ :: tokensOf (p.after s.text) rest := by
  simp [tokensOf, located, h]

/-! ## Cuts -/

variable {before : List Char} {pieces : List Segment} {tokens : List Token}

theorem Cut.tokens_eq (h : Cut before pieces tokens) : tokens = tokensOf (.behind before) pieces := by
  induction h with
  | done => rfl
  | skip _ hskip _ ih =>
    rw [tokensOf_skip (Segment.token?_eq_none.2 hskip), Position.behind_after, ih]
  | lexeme _ hkind _ ih =>
    rw [tokensOf_lexeme (Segment.token?_eq_some.2 hkind), Position.behind_after, ih]

theorem segments_of_stands {s : Segment} {rest : List Char} (h : s.Stands rest) :
    segments (s.text ++ rest) = s :: segments rest := by
  cases htext : s.text ++ rest with
  | nil =>
    have hpos := h.length_text_pos
    rw [(List.append_eq_nil_iff.1 htext).1] at hpos
    cases hpos
  | cons c text =>
    -- The first segment is the one that stands there, so what it leaves is what stands behind.
    rw [segments, ← h.eq_first htext, ← htext, List.drop_left]

/-- A text can be cut in one way only. -/
theorem Cut.segments_eq (h : Cut before pieces tokens) :
    segments (pieces.flatMap Segment.text) = pieces := by
  induction h with
  | done => rw [List.flatMap_nil, segments]
  | skip hs _ _ ih => rw [List.flatMap_cons, segments_of_stands hs, ih]
  | lexeme hs _ _ ih => rw [List.flatMap_cons, segments_of_stands hs, ih]

/-- The segments of a text are a cut of it. -/
theorem cut_segments (before text : List Char) :
    Cut before (segments text) (tokensOf (.behind before) (segments text)) := by
  induction text using segments.induct generalizing before with
  | case1 =>
    rw [segments]
    exact .done
  | case2 c rest s ih =>
    rw [segments]
    have hs : s.Stands ((segments ((c :: rest).drop s.text.length)).flatMap Segment.text) := by
      rw [flatten_segments]
      exact Segment.first_stands c rest
    cases htoken : s.token? with
    | none =>
      rw [tokensOf_skip htoken, Position.behind_after]
      exact .skip hs (Segment.token?_eq_none.1 htoken) (ih _)
    | some kind =>
      rw [tokensOf_lexeme htoken, Position.behind_after]
      exact .lexeme hs (Segment.token?_eq_some.1 htoken) (ih _)

/-- Scanning a text gives the tokens of the lexemes that it is cut into, each where its lexeme
starts, and the end of the text behind them. -/
theorem tokenize_iff_cut (source : String) (tokens : List Token) :
    (Scan.ofString source).tokenize.1 = tokens ↔
      ∃ pieces, pieces.flatMap Segment.text = source.toList ∧ Cut [] pieces tokens := by
  have hscan : (Scan.ofString source).tokenize.1 = tokensOf (.behind []) (segments source.toList) :=
    (Scan.ofString source).tokens_eq
  rw [hscan]
  constructor
  · rintro rfl
    exact ⟨_, flatten_segments _, cut_segments [] source.toList⟩
  · rintro ⟨pieces, htext, hcut⟩
    rw [hcut.tokens_eq, ← htext, hcut.segments_eq]

end BlockMachine
