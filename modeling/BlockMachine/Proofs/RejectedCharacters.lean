import BlockMachine.Proofs.Lexemes
import Mathlib.Data.List.DropRight

/-! # Which characters are rejected

A scan meets a character it has to reject in the middle of other work: it may just have left a
word, a number or a comment.  Which characters it rejects can be said of each of them alone, by what
stands in front of it on its line.

* `currentLine` — the line that a text has got to, `textLines` — all lines of a text;
* `Foreign` — a character that the language has no use for where it stands;
* `rejectionAt?` — the rejection of one place of a text, if its character is foreign;
* `sourceLine_eq_textLines` — the line that is cut out around a place is the one with the number that
  a scan has counted there;
* `rejections_tokenize` — a scan rejects the foreign characters, in the order of the text.
-/

namespace BlockMachine

open Character

/-! ## Lines -/

def currentLine (before : List Char) : List Char :=
  before.rtakeWhile (· != '\n')

theorem currentLine_newline (before : List Char) : currentLine (before ++ ['\n']) = [] :=
  List.rtakeWhile_concat_neg _ _ _ (by decide)

theorem currentLine_append {before run : List Char} (h : '\n' ∉ run) :
    currentLine (before ++ run) = currentLine before ++ run := by
  have hrun : ∀ c ∈ run.reverse, (c != '\n') = true := by
    intro c hc
    rw [bne_iff_ne]
    rintro rfl
    exact h (List.mem_reverse.1 hc)
  simp only [currentLine, List.rtakeWhile, List.reverse_append]
  rw [List.takeWhile_append_of_pos hrun, List.reverse_append, List.reverse_reverse]

/-- The lines of a text, without the newlines between them. -/
def textLines : List Char → List (List Char)
  | [] => [[]]
  | c :: rest =>
    if c = '\n' then [] :: textLines rest
    else
      match textLines rest with
      | [] => [[c]]
      | line :: lines => (c :: line) :: lines

theorem textLines_ne_nil (text : List Char) : textLines text ≠ [] := by
  cases text with
  | nil => exact List.cons_ne_nil _ _
  | cons c rest =>
    rw [textLines]
    split
    · exact List.cons_ne_nil _ _
    · split <;> exact List.cons_ne_nil _ _

theorem textLines_cons {c : Char} (hc : c ≠ '\n') (rest : List Char) :
    ∃ line lines, textLines rest = line :: lines ∧ textLines (c :: rest) = (c :: line) :: lines := by
  obtain ⟨line, lines, hlines⟩ := List.exists_cons_of_ne_nil (textLines_ne_nil rest)
  refine ⟨line, lines, hlines, ?_⟩
  rw [textLines, if_neg hc, hlines]

theorem textLines_newline (rest : List Char) : textLines ('\n' :: rest) = [] :: textLines rest := by
  rw [textLines, if_pos rfl]

theorem textLines_head? (text : List Char) :
    (textLines text)[0]? = some (text.takeWhile (· != '\n')) := by
  induction text with
  | nil => rfl
  | cons c rest ih =>
    by_cases hc : c = '\n'
    · rw [hc, textLines_newline]
      rfl
    · obtain ⟨line, lines, hlines, hcons⟩ := textLines_cons hc rest
      rw [hlines] at ih
      cases ih
      rw [hcons, List.takeWhile_cons_of_pos (by simpa using hc)]
      rfl

theorem textLines_append_newline (text rest : List Char) :
    textLines (text ++ '\n' :: rest) = textLines text ++ textLines rest := by
  induction text with
  | nil => exact textLines_newline rest
  | cons c text ih =>
    rw [List.cons_append]
    by_cases hc : c = '\n'
    · rw [hc, textLines_newline, textLines_newline, ih, List.cons_append]
    · obtain ⟨line, lines, hlines, hcons⟩ := textLines_cons hc text
      obtain ⟨line', lines', hlines', hcons'⟩ := textLines_cons hc (text ++ '\n' :: rest)
      rw [hlines', hlines, List.cons_append, List.cons.injEq] at ih
      rw [hcons', hcons, ih.1, ih.2, List.cons_append]

theorem length_textLines (text : List Char) : (textLines text).length = text.count '\n' + 1 := by
  induction text with
  | nil => rfl
  | cons c text ih =>
    by_cases hc : c = '\n'
    · rw [hc, textLines_newline, List.length_cons, ih, List.count_cons_self]
    · obtain ⟨line, lines, hlines, hcons⟩ := textLines_cons hc text
      rw [hlines] at ih
      rw [hcons, List.count_cons_of_ne hc]
      exact ih

/-- As many lines in front of a place as there are newlines, its own line goes on to the next
newline. -/
theorem textLines_getElem? (before rest : List Char) :
    (textLines (before ++ rest))[before.count '\n']? =
      some (currentLine before ++ rest.takeWhile (· != '\n')) := by
  induction before using List.reverseRecOn generalizing rest with
  | nil => exact textLines_head? rest
  | append_singleton before c ih =>
    rw [List.append_assoc, List.singleton_append]
    by_cases hc : c = '\n'
    · -- The line starts here, behind all lines of the text in front.
      have hcount : (before ++ ['\n']).count '\n' = (textLines before).length := by
        rw [length_textLines, List.count_append, List.count_singleton_self]
      rw [hc, hcount, textLines_append_newline, List.getElem?_append_right (Nat.le_refl _),
        Nat.sub_self, textLines_head?, currentLine_newline, List.nil_append]
    · have hcount : (before ++ [c]).count '\n' = before.count '\n' := by
        rw [List.count_append, List.count_singleton, if_neg (by simpa using hc), Nat.add_zero]
      rw [hcount, ih, List.takeWhile_cons_of_pos (by simpa using hc),
        currentLine_append (by simpa using Ne.symm hc), List.append_assoc, List.singleton_append]

theorem sourceLine_append (before rest : List Char) :
    sourceLine (before ++ rest) before.length =
      shownLine (currentLine before ++ rest.takeWhile (· != '\n')) := by
  rw [sourceLine, List.take_left, List.drop_left]
  rfl

/-- The line around a place is the one with the number that the place has. -/
theorem sourceLine_eq_textLines (before rest : List Char) :
    (textLines (before ++ rest))[(Position.behind before).line - 1]?.map shownLine =
      some (sourceLine (before ++ rest) before.length) := by
  have hline : (Position.behind before).line - 1 = before.count '\n' := Nat.add_sub_cancel_left ..
  rw [hline, textLines_getElem?, Option.map_some, sourceLine_append]

/-! ## Characters without a use -/

/-- The character `c` behind the text `before`: no comment has started on its line up to and with
it, and it is not a blank, an ASCII letter, a digit, an underscore or a colon. -/
def Foreign (before : List Char) (c : Char) : Prop :=
  ';' ∉ currentLine (before ++ [c]) ∧ isBlank c = false ∧ isWordPart c = false ∧ c ≠ ':'

instance (before : List Char) (c : Char) : Decidable (Foreign before c) :=
  inferInstanceAs (Decidable (_ ∧ _ ∧ _ ∧ _))

/-- The rejection of the character at the place `i` of a text, if it is foreign there.  It shows the
text between the newlines around the place, without the carriage returns at the end. -/
def rejectionAt? (text : List Char) (i : Nat) : Option Rejection :=
  text[i]?.bind fun c =>
    if Foreign (text.take i) c then
      some {
        position := .behind (text.take i)
        character := c
        sourceLine := String.ofList
          ((currentLine (text.take i) ++ (text.drop i).takeWhile (· != '\n')).rdropWhile
            (· == '\r')) }
    else none

theorem rejectionAt?_of_foreign {before rest : List Char} {c : Char} (h : Foreign before c) :
    rejectionAt? (before ++ c :: rest) before.length =
      some ⟨.behind before, c, sourceLine (before ++ c :: rest) before.length⟩ := by
  rw [sourceLine_append, rejectionAt?, List.getElem?_append_right (Nat.le_refl _), Nat.sub_self,
    List.take_left, List.drop_left, List.getElem?_cons_zero, Option.bind_some, if_pos h]
  rfl

theorem rejectionAt?_of_not_foreign {before rest : List Char} {c : Char} (h : ¬ Foreign before c) :
    rejectionAt? (before ++ c :: rest) before.length = none := by
  rw [rejectionAt?, List.getElem?_append_right (Nat.le_refl _), Nat.sub_self, List.take_left,
    List.getElem?_cons_zero, Option.bind_some, if_neg h]

theorem line_of_rejectionAt? {text : List Char} {i : Nat} {r : Rejection}
    (h : rejectionAt? text i = some r) :
    (textLines text)[r.position.line - 1]?.map shownLine = some r.sourceLine := by
  obtain ⟨c, -, hforeign⟩ := Option.bind_eq_some_iff.1 h
  have hline := sourceLine_eq_textLines (text.take i) (text.drop i)
  rw [sourceLine_append, List.take_append_drop] at hline
  split at hforeign
  · cases hforeign
    exact hline
  · cases hforeign

/-- The rejections of the places in a part of a text. -/
def rejectionsWithin (before part rest : List Char) : List Rejection :=
  (List.range' before.length part.length).filterMap (rejectionAt? (before ++ part ++ rest))

theorem rejectionsWithin_append (before part part' rest : List Char) :
    rejectionsWithin before (part ++ part') rest =
      rejectionsWithin before part (part' ++ rest) ++
        rejectionsWithin (before ++ part) part' rest := by
  simp only [rejectionsWithin, List.length_append, List.append_assoc]
  rw [← List.range'_append_1, List.filterMap_append]

theorem rejectionsWithin_singleton (before rest : List Char) (c : Char) :
    rejectionsWithin before [c] rest =
      (rejectionAt? (before ++ c :: rest) before.length).toList := by
  rw [rejectionsWithin, List.length_singleton, List.range'_one, List.filterMap_eq_flatMap_toList,
    List.flatMap_singleton, List.append_assoc, List.singleton_append]

/-- Nothing is rejected in a part that has no foreign character. -/
theorem rejectionsWithin_eq_nil {before part : List Char} (rest : List Char)
    (h : ∀ front c back, part = front ++ c :: back → ¬ Foreign (before ++ front) c) :
    rejectionsWithin before part rest = [] := by
  induction part generalizing before with
  | nil => rfl
  | cons c part ih =>
    have hfirst : ¬ Foreign before c := by
      simpa using h [] c part rfl
    have hrest : rejectionsWithin (before ++ [c]) part rest = [] := by
      refine ih ?_
      rintro front d back rfl
      rw [List.append_assoc]
      exact h (c :: front) d back rfl
    rw [← List.singleton_append, rejectionsWithin_append, rejectionsWithin_singleton,
      rejectionAt?_of_not_foreign hfirst, hrest]
    rfl

/-! ## Segment by segment -/

/-- At this place a scan is not inside of a comment: where one has started on the line, it has come
to its end. -/
def BetweenSegments (before rest : List Char) : Prop :=
  ';' ∈ currentLine before → ∀ d ∈ rest.head?, d = '\n'

theorem betweenSegments_start (text : List Char) : BetweenSegments [] text :=
  fun h => absurd h List.not_mem_nil

/-- A part without newlines and semicolons goes on with a line that no comment has started on. -/
theorem BetweenSegments.append {before part rest : List Char}
    (h : BetweenSegments before (part ++ rest)) (hpart : part ≠ []) (hnewline : '\n' ∉ part)
    (hsemicolon : ';' ∉ part) : ';' ∉ currentLine (before ++ part) := by
  obtain ⟨c, run, rfl⟩ := List.exists_cons_of_ne_nil hpart
  rw [currentLine_append hnewline, List.mem_append, not_or]
  refine ⟨?_, hsemicolon⟩
  intro hmem
  have hc : c = '\n' := h hmem c rfl
  exact hnewline (hc ▸ List.mem_cons_self)

theorem not_mem_of_isWordPart {run : List Char} (h : ∀ c ∈ run, isWordPart c) {d : Char}
    (hd : isWordPart d = false) : d ∉ run := by
  intro hmem
  rw [h d hmem] at hd
  cases hd

/-- Nothing is rejected in a part of letters, digits and underscores. -/
theorem rejectionsWithin_of_isWordPart {part : List Char} (h : ∀ c ∈ part, isWordPart c)
    (before rest : List Char) : rejectionsWithin before part rest = [] := by
  refine rejectionsWithin_eq_nil rest ?_
  rintro front c back rfl hforeign
  have hc : isWordPart c := h c (List.mem_append_right _ List.mem_cons_self)
  rw [hforeign.2.2.1] at hc
  cases hc

namespace Segment

theorem isWordPart_of_number {c : Char} {digits : List Char} (hc : isDigit c)
    (hdigits : ∀ d ∈ digits, isNumberPart d) : ∀ d ∈ c :: digits, isWordPart d := by
  rw [List.forall_mem_cons, isWordPart, hc, Bool.or_true]
  exact ⟨rfl, fun d hd => isWordPart_of_isNumberPart (hdigits d hd)⟩

theorem isWordPart_of_word {c : Char} {parts : List Char} (hc : isWordStart c)
    (hparts : ∀ d ∈ parts, isWordPart d) : ∀ d ∈ c :: parts, isWordPart d := by
  rw [List.forall_mem_cons, isWordPart, hc, Bool.true_or]
  exact ⟨rfl, hparts⟩

/-- Blanks and comments apart, a segment has no newline and no semicolon in it. -/
theorem Stands.ordinary {s : Segment} {rest : List Char} (hs : s.Stands rest) :
    (∃ c, s = .blank c) ∨ (∃ body, s = .comment (';' :: body)) ∨ '\n' ∉ s.text ∧ ';' ∉ s.text := by
  cases hs with
  | @blank c _ _ => exact .inl ⟨c, rfl⟩
  | @comment body _ _ _ => exact .inr (.inl ⟨body, rfl⟩)
  | @rejected c _ hblank hsemicolon _ _ _ =>
    refine .inr (.inr ⟨?_, by simpa [Segment.text] using Ne.symm hsemicolon⟩)
    intro hmem
    obtain rfl := List.mem_singleton.1 hmem
    cases hblank
  | colon => exact .inr (.inr (by decide))
  | number hc hdigits _ =>
    have hparts := isWordPart_of_number hc hdigits
    exact .inr (.inr ⟨not_mem_of_isWordPart hparts rfl, not_mem_of_isWordPart hparts rfl⟩)
  | word hc hparts _ =>
    have hparts := isWordPart_of_word hc hparts
    exact .inr (.inr ⟨not_mem_of_isWordPart hparts rfl, not_mem_of_isWordPart hparts rfl⟩)

/-- Behind a segment a scan is between segments again. -/
theorem Stands.betweenSegments {s : Segment} {before rest : List Char} (hs : s.Stands rest)
    (h : BetweenSegments before (s.text ++ rest)) : BetweenSegments (before ++ s.text) rest := by
  have hne : s.text ≠ [] := List.ne_nil_of_length_pos hs.length_text_pos
  obtain ⟨c, rfl⟩ | ⟨body, rfl⟩ | ⟨hnewline, hsemicolon⟩ := hs.ordinary
  · intro hmem
    by_cases hc : c = '\n'
    · rw [hc, Segment.text, currentLine_newline] at hmem
      cases hmem
    · refine absurd hmem (h.append hne ?_ ?_)
      · simpa [Segment.text] using Ne.symm hc
      · intro hsemicolon
        obtain rfl := List.mem_singleton.1 hsemicolon
        cases hs with
        | blank hblank => cases hblank
  · cases hs with
    | comment _ hend => exact fun _ => hend
  · exact fun hmem => absurd hmem (h.append hne hnewline hsemicolon)

/-- What a segment rejects are the foreign characters in it. -/
theorem Stands.rejectionsWithin_text {s : Segment} {before rest : List Char} (hs : s.Stands rest)
    (h : BetweenSegments before (s.text ++ rest)) :
    rejectionsWithin before s.text rest =
      (s.rejection? (before ++ (s.text ++ rest)) before.length (.behind before)).toList := by
  cases hs with
  | @blank c _ hc =>
    have hforeign : ¬ Foreign before c := by
      intro hforeign
      rw [hforeign.2.1] at hc
      cases hc
    rw [Segment.text, rejectionsWithin_singleton, rejectionAt?_of_not_foreign hforeign]
    rfl
  | @comment body _ hbody _ =>
    refine rejectionsWithin_eq_nil rest ?_
    intro front c back hsplit hforeign
    -- The semicolon is on the line of every character of the comment, itself included.
    have hfront : front ++ [c] <+: ';' :: body := ⟨back, by simpa [Segment.text] using hsplit.symm⟩
    have hnewline : '\n' ∉ front ++ [c] := fun hmem => by simpa [hbody] using hfront.subset hmem
    refine hforeign.1 ?_
    rw [List.append_assoc, currentLine_append hnewline]
    refine List.mem_append_right _ ?_
    cases front with
    | nil => cases hsplit; exact List.mem_cons_self
    | cons d front => cases hsplit; exact List.mem_cons_self
  | @rejected c _ hblank hsemicolon hcolon hdigit hword =>
    have hnewline : '\n' ∉ [c] := by
      intro hmem
      obtain rfl := List.mem_singleton.1 hmem
      cases hblank
    have hline : ';' ∉ currentLine (before ++ [c]) :=
      h.append (List.cons_ne_nil c []) hnewline (by simpa [Segment.text] using Ne.symm hsemicolon)
    have hclass : isWordPart c = false := by rw [isWordPart, hword, hdigit, Bool.or_false]
    have hforeign : Foreign before c := ⟨hline, hblank, hclass, hcolon⟩
    rw [Segment.text, rejectionsWithin_singleton, rejectionAt?_of_foreign hforeign]
    rfl
  | colon =>
    have hforeign : ¬ Foreign before ':' := fun hforeign => hforeign.2.2.2 rfl
    rw [Segment.text, rejectionsWithin_singleton, rejectionAt?_of_not_foreign hforeign]
    rfl
  | number hc hdigits _ => exact rejectionsWithin_of_isWordPart (isWordPart_of_number hc hdigits) _ _
  | word hc hparts _ => exact rejectionsWithin_of_isWordPart (isWordPart_of_word hc hparts) _ _

end Segment

/-- The rejections of the segments behind a text are those of the places behind it. -/
theorem rejectionsOf_segments (before text : List Char) (h : BetweenSegments before text) :
    rejectionsOf (before ++ text) before.length (.behind before) (segments text) =
      rejectionsWithin before text [] := by
  induction text using segments.induct generalizing before with
  | case1 =>
    rw [segments]
    rfl
  | case2 c rest s ih =>
    have hs : s.Stands ((c :: rest).drop s.text.length) := Segment.first_stands c rest
    have hsplit : c :: rest = s.text ++ (c :: rest).drop s.text.length :=
      (List.prefix_iff_eq_append.1 (Segment.text_first_front c rest)).symm
    rw [segments, rejectionsOf, Position.behind_after, ← List.length_append]
    generalize (c :: rest).drop s.text.length = rest' at hs hsplit ih ⊢
    rw [hsplit] at h ⊢
    rw [← List.append_assoc, ih _ (hs.betweenSegments h), rejectionsWithin_append, List.append_nil,
      hs.rejectionsWithin_text h, List.append_assoc]

theorem newRejections_ofString (source : String) :
    (Scan.ofString source).newRejections =
      (List.range source.toList.length).filterMap (rejectionAt? source.toList) := by
  have hall := rejectionsOf_segments [] source.toList (betweenSegments_start _)
  rw [rejectionsWithin, List.append_nil, List.nil_append] at hall
  rw [List.range_eq_range']
  exact hall

/-- Scanning a text rejects its foreign characters, each once and in the order of the text.  What is
shown with a rejection is the line that has the number of its position. -/
theorem rejections_tokenize (source : String) :
    (Scan.ofString source).tokenize.2.rejections =
        (List.range source.toList.length).filterMap (rejectionAt? source.toList) ∧
      ∀ r ∈ (Scan.ofString source).tokenize.2.rejections,
        (textLines source.toList)[r.position.line - 1]?.map shownLine = some r.sourceLine := by
  have hrejections : (Scan.ofString source).tokenize.2.rejections =
      (Scan.ofString source).newRejections := rfl
  rw [hrejections, newRejections_ofString]
  refine ⟨rfl, ?_⟩
  intro r hr
  obtain ⟨i, -, hat⟩ := List.mem_filterMap.1 hr
  exact line_of_rejectionAt? hat

end BlockMachine
