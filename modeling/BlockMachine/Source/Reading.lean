import BlockMachine.Numeral
import BlockMachine.Source.Block
import BlockMachine.Source.Token

/-! # Reading blocks

Blocks are read from tokens by the grammar

    program      block* EOF
    block        IDENTIFIER ':' (instruction | block)* END IDENTIFIER
    instruction  KEYWORD [NUMBER | IDENTIFIER]

where the name behind `END` is the label of the block, and the keyword says what stands behind it.
Reading takes one token at a time.  Between two tokens it keeps the blocks that are still open, so
that a token which cannot follow is found at once.

* `Reading` — what has been read so far;
* `Reading.feed` — reading one more token;
* `Reading.finish` — the end of the input;
* `Reader` — tokens to be read, by any number of attempts: one that fails has used up the tokens up
  to and with the one it failed at.
-/

namespace BlockMachine

/-- What could have stood in the place of a token. -/
inductive Expected
  | blockLabel
  | colon
  | endLabel
  | item
  | number (mnemonic : Mnemonic)
  | name (mnemonic : Mnemonic)
  deriving DecidableEq, Repr

def Expected.text : Expected → String
  | blockLabel => "block label"
  | colon => "':' after block label"
  | endLabel => "block label after END"
  | item => "instruction or nested block"
  | number mnemonic => s!"number after {mnemonic.text}"
  | name (.op .call) => "block name after CALL"
  | name mnemonic => s!"label name after {mnemonic.text}"

inductive ReadError
  | unexpected (expected : Expected) (found : TokenKind) (position : Position)
  | mismatchedEnd (expected found : String) (position : Position)
  | invalidNumber (text : String) (position : Position)
  | neverClosed (label : String)
  deriving DecidableEq, Repr

def ReadError.message : ReadError → String
  | unexpected expected found p =>
    s!"Unexpected {found.text} at line {p.line}, column {p.column}: expected {expected.text}"
  | mismatchedEnd expected found p =>
    s!"Line {p.line}, column {p.column} is \"END {found}\", but it has to be \"END {expected}\""
  | invalidNumber text p =>
    s!"Invalid number '{text}' at line {p.line}, column {p.column}: does not fit in 32 bits"
  | neverClosed label => s!"Unexpected end of input: block '{label}' is never closed"

/-- A block whose end has not been read; what it holds so far, the latest first. -/
structure OpenBlock where
  label : String
  line : Nat
  instructions : List Instruction
  blocks : List CodeBlock
  deriving Repr

namespace OpenBlock

def start (label : String) (line : Nat) : OpenBlock :=
  ⟨label, line, [], []⟩

def addInstruction (b : OpenBlock) (i : Instruction) : OpenBlock :=
  { b with instructions := i :: b.instructions }

def addBlock (b : OpenBlock) (nested : CodeBlock) : OpenBlock :=
  { b with blocks := nested :: b.blocks }

def close (b : OpenBlock) : CodeBlock :=
  ⟨b.label, b.instructions.reverse, b.blocks.reverse, b.line⟩

end OpenBlock

/-- What is around the innermost open block: the finished blocks of the program, the latest first,
and the blocks that it is nested in, the innermost first. -/
structure Around where
  finished : List CodeBlock
  enclosing : List OpenBlock
  deriving Repr

/-- What has been read so far, by what comes next. -/
inductive Reading
  /-- no block is open -/
  | between (finished : List CodeBlock)
  /-- a label has been read, and a colon is due -/
  | labelled (label : String) (line : Nat) (around : Around)
  /-- a block is open, and anything that it may hold comes next -/
  | inside (block : OpenBlock) (around : Around)
  /-- a keyword has been read, and its operand is due -/
  | operand (mnemonic : Mnemonic) (position : Position) (block : OpenBlock) (around : Around)
  /-- `END` has been read, and the label of the block is due -/
  | closing (block : OpenBlock) (around : Around)
  deriving Repr

namespace Reading

def start : Reading :=
  .between []

/-- Reading goes on behind a block that has been closed. -/
def close (block : OpenBlock) : Around → Reading
  | ⟨finished, []⟩ => .between (block.close :: finished)
  | ⟨finished, outer :: enclosing⟩ => .inside (outer.addBlock block.close) ⟨finished, enclosing⟩

/-- A token that cannot stand in the innermost block.  The end of the input is reported as a block
that is never closed. -/
def reject (label : String) (expected : Expected) (t : Token) : ReadError :=
  match t.kind with
  | .eof => .neverClosed label
  | found => .unexpected expected found t.position

/-- The operand that a token gives to a mnemonic. -/
def operandOf (mnemonic : Mnemonic) (label : String) (t : Token) : Except ReadError Value :=
  match mnemonic.operand, t.kind with
  | .number, .number text =>
    match Numeral.signed? text.toList >>= fit? with
    | some n => .ok (.integer n)
    | none => .error (.invalidNumber text t.position)
  | .number, _ => .error (reject label (.number mnemonic) t)
  | _, .identifier name => .ok (.label name)
  | _, _ => .error (reject label (.name mnemonic) t)

def feed (t : Token) : Reading → Except ReadError Reading
  | .between finished =>
    match t.kind with
    | .identifier label => .ok (.labelled label t.position.line ⟨finished, []⟩)
    | .eof => .ok (.between finished)
    | found => .error (.unexpected .blockLabel found t.position)
  | .labelled label line around =>
    match t.kind with
    | .colon => .ok (.inside (.start label line) around)
    | _ => .error (reject label .colon t)
  | .inside block around =>
    match t.kind with
    | .keyword .endBlock => .ok (.closing block around)
    | .keyword mnemonic =>
      if mnemonic.operand = .nothing then
        .ok (.inside (block.addInstruction ⟨mnemonic, none, t.position⟩) around)
      else .ok (.operand mnemonic t.position block around)
    | .identifier label =>
      .ok (.labelled label t.position.line ⟨around.finished, block :: around.enclosing⟩)
    | _ => .error (reject block.label .item t)
  | .operand mnemonic position block around => do
    let value ← operandOf mnemonic block.label t
    return .inside (block.addInstruction ⟨mnemonic, some value, position⟩) around
  | .closing block around =>
    match t.kind with
    | .identifier name =>
      if name = block.label then .ok (close block around)
      else .error (.mismatchedEnd block.label name t.position)
    | _ => .error (reject block.label .endLabel t)

/-- The blocks that have been read when the input ends here. -/
def finish : Reading → Except ReadError (List CodeBlock)
  | .between finished => .ok finished.reverse
  | .labelled label _ _ => .error (.neverClosed label)
  | .inside block _ | .operand _ _ block _ | .closing block _ => .error (.neverClosed block.label)

/-- Reads tokens to the end of the input or to the first one that cannot follow; the tokens behind
that one stay unread. -/
def run : Reading → List Token → Except ReadError (List CodeBlock) × List Token
  | r, [] => (r.finish, [])
  | r, t :: rest =>
    match r.feed t with
    | .ok r => run r rest
    | .error e => (.error e, rest)

end Reading

/-- Tokens that are still to be read, up to the end of the input. -/
structure Reader where
  unread : List Token
  deriving DecidableEq, Repr

namespace Reader

/-- A reader of the tokens in front of the first end of the input. -/
def ofTokens (tokens : List Token) : Reader :=
  ⟨tokens.takeWhile (·.kind != .eof)⟩

def readTree (r : Reader) : Except ReadError (List CodeBlock) × Reader :=
  let (result, unread) := Reading.start.run r.unread
  (result, ⟨unread⟩)

def readFlat (r : Reader) : Except ReadError (List FlatBlock) × Reader :=
  let (result, r) := r.readTree
  (result.map CodeBlock.flattenAll, r)

end Reader

end BlockMachine
