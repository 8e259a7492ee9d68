/-! # Character classes

The classes of characters that the source language tells apart: blanks, which are the characters
with the White_Space property of Unicode, and the ASCII characters of words and numbers.  No
character is in more than one of `isBlank`, `isDigit` and `isWordStart`.
-/

namespace BlockMachine.Character

/-- The ranges of code points with the White_Space property, in ascending order. -/
def blankRanges : List (Nat × Nat) :=
  [ (0x09, 0x0d), (0x20, 0x20), (0x85, 0x85), (0xa0, 0xa0), (0x1680, 0x1680), (0x2000, 0x200a),
    (0x2028, 0x2029), (0x202f, 0x202f), (0x205f, 0x205f), (0x3000, 0x3000) ]

def isBlank (c : Char) : Bool :=
  blankRanges.any fun (low, high) => low ≤ c.toNat && c.toNat ≤ high

/-- The table has twenty-five code points. -/
example : (blankRanges.map fun (low, high) => high + 1 - low).sum = 25 := by decide

def isDigit (c : Char) : Bool :=
  '0' ≤ c && c ≤ '9'

/-- A character that a word may start with: an ASCII letter or an underscore. -/
def isWordStart (c : Char) : Bool :=
  ('a' ≤ c && c ≤ 'z') || ('A' ≤ c && c ≤ 'Z') || c == '_'

/-- A character that a word may go on with. -/
def isWordPart (c : Char) : Bool :=
  isWordStart c || isDigit c

/-- A character that a number may go on with: underscores may stand between its digits. -/
def isNumberPart (c : Char) : Bool :=
  isDigit c || c == '_'

end BlockMachine.Character
