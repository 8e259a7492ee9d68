/-! # Numbers as text

Writing: hexadecimal words and decimal offsets of a fixed least width.  Reading: decimal digits
with an optional sign, of any length and with any leading zeros.

* `Numeral.hex`, `Numeral.padded` — written forms;
* `Numeral.decimal?` — the value of one or more decimal digits;
* `Numeral.unsigned?`, `Numeral.signed?` — the same behind an optional sign.
-/

namespace BlockMachine.Numeral

/-- A number in base sixteen, behind `0x`. -/
def hex (n : Nat) : String :=
  "0x" ++ String.ofList (Nat.toDigits 16 n)

/-- A number in base ten, filled up with zeros on the left to `width` digits. -/
def padded (width n : Nat) : String :=
  String.ofList ((Nat.toDigits 10 n).leftpad width '0')

def digitValue (c : Char) : Nat :=
  c.toNat - '0'.toNat

/-- The value of a list of decimal digits, the most significant first. -/
def decimalValue (digits : List Char) : Nat :=
  digits.foldl (fun n c => 10 * n + digitValue c) 0

/-- The value of one or more decimal digits; none for any other text. -/
def decimal? (text : List Char) : Option Nat :=
  if text ≠ [] ∧ text.all Char.isDigit then some (decimalValue text) else none

def unsigned? : List Char → Option Nat
  | '+' :: digits => decimal? digits
  | digits => decimal? digits

/-- A number that may have a sign. -/
def signed? : List Char → Option Int
  | '+' :: digits => (decimal? digits).map Int.ofNat
  | '-' :: digits => (decimal? digits).map fun n => -Int.ofNat n
  | digits => (decimal? digits).map Int.ofNat

end BlockMachine.Numeral
