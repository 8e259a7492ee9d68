import BlockMachine.Program

/-! # Programs as JSON text

A program as a JSON object with the fields `code`, `constants` and `blocks`, one item to a line,
indented by two blanks for each level.
-/

namespace BlockMachine

/-- Lines of JSON text, without the indentation that what is around them gives them. -/
abbrev JsonLines := List String

namespace JsonLines

def indent (lines : JsonLines) : JsonLines :=
  lines.map ("  " ++ ·)

/-- The lines with a text behind the last one. -/
def close (tail : String) : JsonLines → JsonLines
  | [] => []
  | [line] => [line ++ tail]
  | line :: rest => line :: close tail rest

/-- Items one after the other, divided by commas. -/
def commas : List JsonLines → JsonLines
  | [] => []
  | [item] => item
  | item :: rest => close "," item ++ commas rest

/-- Items between brackets; an empty list is written on one line. -/
def bracket (opening closing : String) (items : List JsonLines) : JsonLines :=
  if items.isEmpty then [opening ++ closing] else opening :: indent (commas items) ++ [closing]

def array (items : List JsonLines) : JsonLines :=
  bracket "[" "]" items

/-- A field of an object: the name in front of the first line of the value. -/
def field (name : String) : JsonLines → JsonLines
  | [] => []
  | line :: rest => s!"\"{name}\": {line}" :: rest

def object (fields : List (String × JsonLines)) : JsonLines :=
  bracket "\x7b" "\x7d" (fields.map fun (name, value) => field name value)

def number (n : Int) : JsonLines :=
  [toString n]

end JsonLines

open JsonLines

/-- A value as a JSON object whose only field tells its kind. -/
def Value.json : Value → JsonLines
  | integer n => object [("Integer", number n.toInt)]
  | label name => object [("Label", [s!"\"{name}\""])]

/-- The bounds of a range as a JSON object. -/
def Range.json (r : Range) : JsonLines :=
  object [("begin", number r.start), ("end", number r.stop)]

def Program.json (p : Program) : String :=
  let lines := object
    [ ("code", array (p.code.toList.map fun (word : Nat) => number word)),
      ("constants", array (p.constants.toList.map Value.json)),
      ("blocks", array (p.blocks.toList.map Range.json)) ]
  "\n".intercalate lines

end BlockMachine
