/-! # Log lines

An entry of the log has a level, a message and named fields.  A message cannot steer the terminal it
is shown on: the characters that could are shown by their codes.  Fields are shown as they are.  How
much of the log is shown is set by a filter: everything up to a level, or nothing.

* `Entry.text` — an entry as written, which takes several lines if there are newlines in it;
* `Filter.lines` — the lines of the entries that a filter shows;
* `quoted` — a text as the value of a field, in quotes.
-/

namespace BlockMachine.Log

/-- How important an entry is, the most important first. -/
inductive Level
  | error
  | warn
  | info
  | debug
  | trace
  deriving DecidableEq, Repr

namespace Level

def rank : Level → Nat
  | error => 1
  | warn => 2
  | info => 3
  | debug => 4
  | trace => 5

def text : Level → String
  | error => "ERROR"
  | warn => "WARN"
  | info => "INFO"
  | debug => "DEBUG"
  | trace => "TRACE"

end Level

abbrev Field := String × String

def Field.nat (name : String) (n : Nat) : Field :=
  (name, toString n)

structure Entry where
  level : Level
  message : String
  fields : List Field
  deriving DecidableEq, Repr

/-- The two hexadecimal digits of a number below 256. -/
def hexByte (n : Nat) : String :=
  String.ofList [Nat.digitChar (n / 16), Nat.digitChar (n % 16)]

/-- The codes of the ASCII characters that are not shown as they are: bell, backspace, form feed,
escape and delete. -/
def steeringCodes : List Nat :=
  [0x07, 0x08, 0x0c, 0x1b, 0x7f]

/-- A character of a message as shown.  Of the control characters outside ASCII, none is shown as it
is. -/
def shownChar (c : Char) : String :=
  if steeringCodes.contains c.toNat then "\\x" ++ hexByte c.toNat
  else if 0x80 ≤ c.toNat ∧ c.toNat ≤ 0x9f then "\\u\x7b" ++ hexByte c.toNat ++ "\x7d"
  else c.toString

def shownMessage (message : String) : String :=
  String.join (message.toList.map shownChar)

/-- What stands behind the backslash for a character that has such a form in quotes. -/
def escape? (c : Char) : Option String :=
  match c.toNat with
  | 0x00 => some "0"
  | 0x09 => some "t"
  | 0x0a => some "n"
  | 0x0d => some "r"
  | 0x22 => some "\""
  | 0x5c => some "\\"
  | _ => none

/-- A character as shown in quotes; a control character is shown by its code. -/
def quotedChar (c : Char) : String :=
  match escape? c with
  | some form => "\\" ++ form
  | none =>
    if c.toNat < 0x20 ∨ 0x7f ≤ c.toNat ∧ c.toNat ≤ 0x9f then
      "\\u\x7b" ++ String.ofList (Nat.toDigits 16 c.toNat) ++ "\x7d"
    else c.toString

def quoted (text : String) : String :=
  "\"" ++ String.join (text.toList.map quotedChar) ++ "\""

def Field.text : Field → String
  | (name, value) => s!" {name}={value}"

def Entry.text (entry : Entry) : String :=
  s!"{entry.level.text} {shownMessage entry.message}" ++ String.join (entry.fields.map Field.text)

/-- The greatest rank that is shown. -/
structure Filter where
  limit : Nat
  deriving DecidableEq, Repr

namespace Filter

def off : Filter := ⟨0⟩

/-- Shows the entries of a level and all more important ones. -/
def upTo (level : Level) : Filter := ⟨level.rank⟩

def shows (filter : Filter) (level : Level) : Bool :=
  level.rank ≤ filter.limit

/-- The filter for a number of requests for more output. -/
def ofVerbosity : Nat → Filter
  | 0 => upTo .warn
  | 1 => upTo .info
  | 2 => upTo .debug
  | _ => upTo .trace

/-- The filter with a given name, in any letter case, or with a given number.  A text that names
no level selects entries by their origin, and none of ours has such an origin. -/
def ofName (name : String) : Filter :=
  match name.toLower with
  | "error" | "1" => upTo .error
  | "warn" | "2" => upTo .warn
  | "info" | "3" => upTo .info
  | "debug" | "4" => upTo .debug
  | "trace" | "5" => upTo .trace
  | _ => off

def lines (filter : Filter) (entries : List Entry) : List String :=
  (entries.filter fun entry => filter.shows entry.level).flatMap fun entry =>
    entry.text.splitToList (· == '\n')

end Filter

end BlockMachine.Log
