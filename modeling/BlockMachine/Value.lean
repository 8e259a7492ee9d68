import BlockMachine.Log

/-! # Values

A value is a signed 32-bit integer or the name of a label.  Programs compute with integers only;
labels are operands of source instructions, and a program built by hand may also hold them as
constants.

* `Value.text` — the value as shown to a user;
* `Value.debug` — the value as shown in log lines, with its constructor;
* `fit?` — the 32-bit integer of a given mathematical value, if there is one.
-/

namespace BlockMachine

/-- A signed 32-bit integer, or the name of a label. -/
inductive Value
  | integer (n : Int32)
  | label (name : String)
  deriving DecidableEq, Repr, Inhabited

/-- The 32-bit integer whose value is `n`; none when `n` is out of range. -/
def fit? (n : Int) : Option Int32 :=
  if Int32.minValue.toInt ≤ n ∧ n ≤ Int32.maxValue.toInt then some (Int32.ofInt n) else none

/-- A number that fits keeps its value. -/
theorem toInt_of_fit? {n : Int} {m : Int32} (h : fit? n = some m) : m.toInt = n := by
  simp only [fit?] at h
  split at h
  · next hn =>
    cases h
    have hmin : Int32.minValue.toInt = -2147483648 := rfl
    have hmax : Int32.maxValue.toInt = 2147483647 := rfl
    exact Int32.toInt_ofInt_of_le (by omega) (by omega)
  · cases h

/-- Exactly the numbers outside the range are refused. -/
theorem fit?_eq_none_iff {n : Int} :
    fit? n = none ↔ n < Int32.minValue.toInt ∨ Int32.maxValue.toInt < n := by
  simp only [fit?]
  split
  · next hn => simp only [reduceCtorEq, false_iff]; omega
  · next hn => simp only [true_iff]; omega

namespace Value

/-- The integer of a value; none for a label. -/
def integer? : Value → Option Int32
  | integer n => some n
  | label _ => none

@[simp] theorem integer?_integer (n : Int32) : (integer n).integer? = some n := rfl
@[simp] theorem integer?_label (name : String) : (label name).integer? = none := rfl

/-- A truth value as the integer one or zero. -/
def ofBool (b : Bool) : Value :=
  integer (if b then 1 else 0)

def kind : Value → String
  | integer _ => "integer"
  | label _ => "label"

def text : Value → String
  | integer n => toString n.toInt
  | label name => s!"<label:{name}>"

def debug : Value → String
  | integer n => s!"Integer({n.toInt})"
  | label name => s!"Label({Log.quoted name})"

def debugList (values : List Value) : String :=
  "[" ++ ", ".intercalate (values.map debug) ++ "]"

/-- A result that may be missing, as shown in a log line. -/
def debugResult : Option Value → String
  | some v => s!"Some({v.debug})"
  | none => "None"

/-- A result that may be missing, as printed after a run. -/
def resultText : Option Value → String
  | some v => v.text
  | none => "<none>"

end Value

end BlockMachine
