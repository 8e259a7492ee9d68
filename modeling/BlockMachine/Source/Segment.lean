import BlockMachine.Source.Character
import BlockMachine.Source.Token

/-! # Segments of a source text

A source text falls into segments: blanks, comments, colons, numbers, words, and characters that
the language has no use for.  Comments run from a semicolon to the end of their line; numbers and
words are as long as possible.

* `Segment.first` — the segment at the front of a text;
* `segments` — all segments; put together they are the text again (`flatten_segments`);
* `Segment.token?` — the token of a segment.
-/

namespace BlockMachine

open Character

inductive Segment
  | blank (c : Char)
  | comment (text : List Char)
  | rejected (c : Char)
  | colon
  | number (lexeme : List Char)
  | word (lexeme : List Char)
  deriving DecidableEq, Repr

namespace Segment

def text : Segment → List Char
  | blank c | rejected c => [c]
  | comment text => text
  | colon => [':']
  | number lexeme | word lexeme => lexeme

/-- The segment at the front of the text `c :: rest`. -/
def first (c : Char) (rest : List Char) : Segment :=
  if isBlank c then .blank c
  else if c = ';' then .comment (c :: rest.takeWhile (· != '\n'))
  else if c = ':' then .colon
  else if isDigit c then .number (c :: rest.takeWhile isNumberPart)
  else if isWordStart c then .word (c :: rest.takeWhile isWordPart)
  else .rejected c

/-- The first segment stands at the front of the text. -/
theorem text_first_front (c : Char) (rest : List Char) :
    (first c rest).text <+: c :: rest := by
  unfold first
  split
  · exact ⟨rest, rfl⟩
  split
  · exact List.cons_prefix_cons.2 ⟨rfl, List.takeWhile_prefix _⟩
  split
  · next h => exact ⟨rest, by simp [text, h]⟩
  split
  · exact List.cons_prefix_cons.2 ⟨rfl, List.takeWhile_prefix _⟩
  split
  · exact List.cons_prefix_cons.2 ⟨rfl, List.takeWhile_prefix _⟩
  · exact ⟨rest, rfl⟩

theorem length_text_first_pos (c : Char) (rest : List Char) : 0 < (first c rest).text.length := by
  unfold first
  repeat' split
  all_goals simp [text]

/-- The token of a segment; none for blanks, comments and rejected characters. -/
def token? : Segment → Option TokenKind
  | blank _ | comment _ | rejected _ => none
  | colon => some .colon
  | number lexeme => some (.number (String.ofList (lexeme.filter (· != '_'))))
  | word lexeme =>
    match Mnemonic.ofWord? (String.ofList lexeme) with
    | some m => some (.keyword m)
    | none => some (.identifier (String.ofList lexeme))

end Segment

def segments : List Char → List Segment
  | [] => []
  | c :: rest =>
    let s := Segment.first c rest
    s :: segments ((c :: rest).drop s.text.length)
termination_by text => text.length
decreasing_by
  have := Segment.length_text_first_pos c rest
  simp only [List.length_drop, List.length_cons]
  omega

/-- The segments of a text are the text. -/
theorem flatten_segments (text : List Char) : (segments text).flatMap Segment.text = text := by
  induction text using segments.induct with
  | case1 => simp [segments]
  | case2 c rest s ih =>
    rw [segments, List.flatMap_cons, ih]
    exact List.prefix_iff_eq_append.1 (Segment.text_first_front c rest)

/-- Segments, each with the position of its first character. -/
def located : Position → List Segment → List (Position × Segment)
  | _, [] => []
  | p, s :: rest => (p, s) :: located (p.after s.text) rest

end BlockMachine
