import BlockMachine.Source.Mnemonic
import BlockMachine.Source.Position

/-! # Tokens

The words, numbers and colons of a source text, each with the position of its first character.
The end of the text is a token of its own.
-/

namespace BlockMachine

inductive TokenKind
  /-- the digits of a number, without the underscores between them -/
  | number (digits : String)
  | identifier (name : String)
  | keyword (mnemonic : Mnemonic)
  | colon
  | eof
  deriving DecidableEq, Repr

def TokenKind.text : TokenKind → String
  | number digits => s!"number '{digits}'"
  | identifier name => s!"identifier '{name}'"
  | keyword mnemonic => s!"keyword {mnemonic.text}"
  | colon => "':'"
  | eof => "EOF"

/-- A token and where it starts. -/
structure Token where
  kind : TokenKind
  position : Position
  deriving DecidableEq, Repr

/-- The line of a token in a token listing. -/
def Token.line (t : Token) : String :=
  s!"{t.position.line}:{t.position.column}\t{t.kind.text}\n"

end BlockMachine
