import BlockMachine.Bytes
import BlockMachine.Files.Fault
import BlockMachine.Program

/-! # File images of programs

A program is stored as a sequence of fields, all numbers with the least significant byte first:

    magic           5 bytes, KOALA
    version         1 byte, 1
    block count     8 bytes, then 8 bytes begin and 8 bytes end of each block
    constant count  8 bytes, then 1 byte type (0: integer) and 4 bytes of each constant
    code size       8 bytes, then 8 bytes of each code word

Labels have no stored form.

* `Image.writes` — the fields of a program in order, up to what cannot be stored;
* `Image.deliver` — writing them, into a buffer of any size or of a fixed one;
* `Image.encode`, `Image.decode` — whole images; decoding leaves the bytes behind the image unread
  and reports the field in which a cut image ends.
-/

namespace BlockMachine

inductive Field
  | magic
  | version
  | blockCount
  | blockBegin
  | blockEnd
  | constantCount
  | constantType
  | integerConstant
  | codeSize
  | codeWord
  deriving DecidableEq, Repr

def Field.text : Field → String
  | magic => "magic"
  | version => "version"
  | blockCount => "block count"
  | blockBegin => "block begin"
  | blockEnd => "block end"
  | constantCount => "constant count"
  | constantType => "constant type"
  | integerConstant => "integer constant"
  | codeSize => "code size"
  | codeWord => "code word"

inductive ImageError
  | io (fault : IoFault)
  | invalidMagic
  | unsupportedVersion (version : UInt8)
  | unknownConstantType (tag : UInt8)
  | labelConstant (name : String)
  | truncated (field : Field)
  | outOfRange (n : Nat)
  deriving DecidableEq, Repr

def ImageError.message : ImageError → String
  | io fault => s!"IO error: {fault.message}"
  | invalidMagic => "Invalid file format: missing KOALA magic"
  | unsupportedVersion version => s!"Unsupported file version: {version.toNat}"
  | unknownConstantType tag => s!"Unknown constant type ID: {tag.toNat}"
  | labelConstant name => s!"Unsupported constant type: label '{name}'"
  | truncated field => s!"Unexpected end of stream while reading {field.text}"
  | outOfRange n => s!"Value out of range: {n}"

namespace Image

/-- The bytes every image starts with. -/
def magic : Bytes :=
  [0x4b, 0x4f, 0x41, 0x4c, 0x41]

def version : UInt8 := 1

/-- The type byte of an integer constant. -/
def integerTag : UInt8 := 0

/-! ## Writing -/

/-- One step of writing an image. -/
inductive Write
  | field (name : Field) (bytes : Bytes)
  | refuse (error : ImageError)
  deriving DecidableEq, Repr

/-- Writing a number, which has 64 bits in the image. -/
def writeNumber (name : Field) (n : Nat) : Write :=
  if n < UInt64.size then .field name (littleEndian 8 n) else .refuse (.outOfRange n)

def writeRange (r : Range) : List Write :=
  [writeNumber .blockBegin r.start, writeNumber .blockEnd r.stop]

/-- Writing a constant: its type and its bytes.  A label is refused before anything is written. -/
def writeConstant : Value → List Write
  | .integer n =>
    [.field .constantType [integerTag], .field .integerConstant (littleEndian 4 n.toUInt32.toNat)]
  | .label name => [.refuse (.labelConstant name)]

/-- The steps of writing a program. -/
def writes (p : Program) : List Write :=
  [.field .magic magic, .field .version [version]]
    ++ writeNumber .blockCount p.blocks.size :: p.blocks.toList.flatMap writeRange
    ++ writeNumber .constantCount p.constants.size :: p.constants.toList.flatMap writeConstant
    ++ writeNumber .codeSize p.code.size :: p.code.toList.map (writeNumber .codeWord)

/-- Carries out writing steps until one fails: the bytes that were written, and the failure if
there is one.  With `room` for a fixed number of bytes, a field that does not fit fills the room
that is left and fails. -/
def deliver : (room : Option Nat) → List Write → Bytes × Except ImageError Unit
  | _, [] => ([], .ok ())
  | _, .refuse error :: _ => ([], .error error)
  | none, .field _ bytes :: rest =>
    let (written, outcome) := deliver none rest
    (bytes ++ written, outcome)
  | some room, .field _ bytes :: rest =>
    if bytes.length ≤ room then
      let (written, outcome) := deliver (some (room - bytes.length)) rest
      (bytes ++ written, outcome)
    else (bytes.take room, .error (.io .bufferFull))

def encode (p : Program) : Except ImageError Bytes :=
  match deliver none (writes p) with
  | (written, .ok ()) => .ok written
  | (_, .error error) => .error error

/-! ## Reading -/

/-- Reading from the front of the unread bytes. -/
abbrev Read := StateT Bytes (Except ImageError)

/-- The bytes of a field of the given width. -/
def readField (name : Field) (width : Nat) : Read Bytes := fun unread =>
  let bytes := unread.take width
  if bytes.length = width then .ok (bytes, unread.drop width) else .error (.truncated name)

def readNumber (name : Field) : Read Nat := do
  return ofLittleEndian (← readField name 8)

def readRange : Read Range := do
  let start ← readNumber .blockBegin
  let stop ← readNumber .blockEnd
  return ⟨start, stop⟩

/-- A constant, behind its type. -/
def readConstant : Read Value := do
  let tag ← readField .constantType 1
  if tag = [integerTag] then
    let bytes ← readField .integerConstant 4
    return .integer (UInt32.ofNat (ofLittleEndian bytes)).toInt32
  else throw (.unknownConstantType (UInt8.ofNat (ofLittleEndian tag)))

/-- A number of items, one after the other. -/
def readMany {α : Type} (item : Read α) : Nat → Read (List α)
  | 0 => pure []
  | count + 1 => do
    let first ← item
    let rest ← readMany item count
    return first :: rest

def readProgram : Read Program := do
  if (← readField .magic 5) ≠ magic then throw .invalidMagic
  let found ← readField .version 1
  if found ≠ [version] then throw (.unsupportedVersion (UInt8.ofNat (ofLittleEndian found)))
  let blocks ← readMany readRange (← readNumber .blockCount)
  let constants ← readMany readConstant (← readNumber .constantCount)
  let code ← readMany (readNumber .codeWord) (← readNumber .codeSize)
  return ⟨code.toArray, constants.toArray, blocks.toArray⟩

/-- The program at the front of a byte string, and the bytes behind it. -/
def decode (bytes : Bytes) : Except ImageError (Program × Bytes) :=
  readProgram.run bytes

end Image

end BlockMachine
