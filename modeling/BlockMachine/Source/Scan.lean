import BlockMachine.Source.Segment

/-! # Scanning a source text

A scan reads a source text from front to end.  It gives the tokens, closed by the token for the end
of the text, and collects the characters it had to reject; reading goes on behind each of them.
A scan that has reached the end has no further tokens to give.

* `Scan.tokenize` — the tokens of what is still unread;
* `Scan.rejections` — the characters rejected so far, unless they have been taken away.
-/

namespace BlockMachine

/-- A character that no token can start with, where it stands, and the line it stands on. -/
structure Rejection where
  position : Position
  character : Char
  sourceLine : String
  deriving DecidableEq, Repr

def Rejection.message (r : Rejection) : String :=
  s!"Error on ({r.position.line};{r.position.column}): Unrecognized token('{r.character}')!: " ++
    r.sourceLine

/-- A line as shown in messages: without the carriage returns at its end. -/
def shownLine (line : List Char) : String :=
  String.ofList (line.reverse.dropWhile (· == '\r')).reverse

/-- The line around a place of a text, as shown in messages.  It is cut out of the text from behind
the last newline in front of the place up to the next one. -/
def sourceLine (source : List Char) (cursor : Nat) : String :=
  let front := ((source.take cursor).reverse.takeWhile (· != '\n')).reverse
  shownLine (front ++ (source.drop cursor).takeWhile (· != '\n'))

/-- The rejection of a segment that stands at a place of a text. -/
def Segment.rejection? (source : List Char) (cursor : Nat) (p : Position) :
    Segment → Option Rejection
  | .rejected c => some ⟨p, c, sourceLine source cursor⟩
  | _ => none

/-- The rejections of segments, the first of which stands at the given place. -/
def rejectionsOf (source : List Char) : (cursor : Nat) → Position → List Segment → List Rejection
  | _, _, [] => []
  | cursor, p, s :: rest =>
    (s.rejection? source cursor p).toList ++
      rejectionsOf source (cursor + s.text.length) (p.after s.text) rest

/-- A source text, the place up to which it has been read, and the rejected characters that have not
been taken away. -/
structure Scan where
  source : List Char
  cursor : Nat
  /-- the line and the column of the cursor -/
  position : Position
  rejections : List Rejection
  deriving DecidableEq, Repr

namespace Scan

def ofString (source : String) : Scan :=
  ⟨source.toList, 0, .start, []⟩

def unread (s : Scan) : List Char :=
  s.source.drop s.cursor

def parts (s : Scan) : List (Position × Segment) :=
  located s.position (segments s.unread)

def endPosition (s : Scan) : Position :=
  s.position.after s.unread

/-- The unread tokens, closed by the end of the text. -/
def tokens (s : Scan) : List Token :=
  s.parts.filterMap (fun (p, segment) => segment.token?.map (⟨·, p⟩)) ++ [⟨.eof, s.endPosition⟩]

/-- The unread characters that have to be rejected. -/
def newRejections (s : Scan) : List Rejection :=
  rejectionsOf s.source s.cursor s.position (segments s.unread)

/-- Reads to the end of the text. -/
def tokenize (s : Scan) : List Token × Scan :=
  (s.tokens,
    { s with
      cursor := s.source.length
      position := s.endPosition
      rejections := s.rejections ++ s.newRejections })

/-- Whether no rejected character is on record. -/
def isClean (s : Scan) : Bool :=
  s.rejections.isEmpty

/-- Takes the rejected characters off the record. -/
def takeRejections (s : Scan) : List Rejection × Scan :=
  (s.rejections, { s with rejections := [] })

end Scan

end BlockMachine
