import BlockMachine.Numeral

/-! # Command line options

Arguments are options and operands.  A long option is written `--name` or `--name=value`, a short
one `-n`, `-nvalue` or `-n=value`, and short options without values may be written together, as in
`-abc`.  An option that takes a value and has none attached takes the next argument, unless that
argument is an option; behind `--` everything is an operand.

A value is looked at when its option is complete, which is when the next option or operand has been
recognised or the arguments end.  So an argument that nothing is known about is reported first.

* `OptionSpec`, `CommandSpec` — what a command understands;
* `CommandSpec.parse` — what a list of arguments asks for, or what is wrong with it.
-/

namespace BlockMachine

/-- What arguments ask for instead of the work of the command, or what is wrong with them. -/
inductive Usage
  | unknownArgument
  | argumentConflict
  | invalidValue
  | tooManyValues
  | valueValidation
  | missingRequiredArgument
  | displayHelp
  | displayVersion
  deriving DecidableEq, Repr

/-- Whether arguments only ask for information about the command. -/
def Usage.isInformation : Usage → Bool
  | displayHelp | displayVersion => true
  | _ => false

inductive ValueForm
  | text
  /-- not empty -/
  | path
  /-- an unsigned number of 64 bits -/
  | number
  deriving DecidableEq, Repr

def ValueForm.check (form : ValueForm) (value : String) : Except Usage Unit :=
  match form with
  | text => .ok ()
  | path => if value = "" then .error .invalidValue else .ok ()
  | number =>
    match Numeral.unsigned? value.toList with
    | some n => if n < UInt64.size then .ok () else .error .valueValidation
    | none => .error .valueValidation

inductive Role
  /-- is given or not, at most once -/
  | flag
  /-- is given any number of times -/
  | counter
  /-- takes a value, at most once; without `needed`, the value may be left out -/
  | setting (form : ValueForm) (needed : Bool)
  /-- asks for information, which ends the reading of the arguments -/
  | information (usage : Usage)
  deriving DecidableEq, Repr

/-- An option by its names, and what it does. -/
structure OptionSpec where
  long : String
  short : Option Char
  role : Role
  deriving DecidableEq, Repr

/-- The options of a command, and whether it has an operand, which is then a path and required. -/
structure CommandSpec where
  options : List OptionSpec
  hasOperand : Bool
  deriving DecidableEq, Repr

/-- Something that still waits for its value or for its value to be looked at. -/
inductive Pending
  | option (spec : OptionSpec) (value : Option String)
  | operand (value : String)
  deriving DecidableEq, Repr

structure Parsed where
  /-- the complete options, by their long names, with their values; the latest first -/
  given : List (String × Option String) := []
  /-- the complete operand -/
  operand : Option String := none
  pending : Option Pending := none
  /-- whether an operand has been seen, complete or not -/
  operandSeen : Bool := false
  /-- whether only operands may follow -/
  operandsOnly : Bool := false
  deriving DecidableEq, Repr

namespace Parsed

def has (p : Parsed) (long : String) : Bool :=
  p.given.any (·.1 == long)

def count (p : Parsed) (long : String) : Nat :=
  p.given.countP (·.1 == long)

/-- The value of an option: none when it is not given, `some none` when it is given alone. -/
def value? (p : Parsed) (long : String) : Option (Option String) :=
  (p.given.find? (·.1 == long)).map Prod.snd

def number? (p : Parsed) (long : String) : Option Nat := do
  Numeral.unsigned? (← ← p.value? long).toList

/-- Puts a complete option on record, unless it may be given only once and has been given. -/
def record (p : Parsed) (spec : OptionSpec) (value : Option String) : Except Usage Parsed := do
  match spec.role with
  | .information usage => throw usage
  | .counter => pure ()
  | .flag => if p.has spec.long then throw .argumentConflict
  | .setting form needed =>
    if needed ∧ value = none then throw .invalidValue
    if p.has spec.long then throw .argumentConflict
    value.forM form.check
  return { p with given := (spec.long, value) :: p.given }

def resolve (p : Parsed) : Except Usage Parsed :=
  match p.pending with
  | none => .ok p
  | some (.option spec value) => ({ p with pending := none } : Parsed).record spec value
  | some (.operand value) => do
    ValueForm.path.check value
    return { p with pending := none, operand := some value }

/-- Takes in an option with an attached value or without one. -/
def takeOption (p : Parsed) (spec : OptionSpec) (attached : Option String) :
    Except Usage Parsed := do
  match spec.role, attached with
  -- The value may still come as the next argument.
  | .setting _ _, none =>
    return { ← p.resolve with pending := some (.option spec none) }
  | _, _ => (← p.resolve).record spec attached

end Parsed

namespace CommandSpec

def byLong? (c : CommandSpec) (name : String) : Option OptionSpec :=
  c.options.find? (·.long == name)

def byShort? (c : CommandSpec) (name : Char) : Option OptionSpec :=
  c.options.find? (·.short == some name)

/-- Takes in a long option, given by what stands behind its dashes. -/
def takeLong (c : CommandSpec) (p : Parsed) (argument : List Char) : Except Usage Parsed :=
  let name := String.ofList (argument.takeWhile (· != '='))
  let attached :=
    match argument.dropWhile (· != '=') with
    | [] => none
    | _ :: value => some (String.ofList value)
  match c.byLong? name with
  | none => .error .unknownArgument
  | some spec =>
    match spec.role, attached with
    | .setting _ _, _ | _, none => p.takeOption spec attached
    | _, some _ => .error .tooManyValues

/-- Takes in short options that are written together.  What follows one that takes a value is its
value. -/
def takeShort (c : CommandSpec) (p : Parsed) : List Char → Except Usage Parsed
  | [] => .ok p
  | name :: rest =>
    match c.byShort? name with
    | none => .error .unknownArgument
    | some spec =>
      match spec.role, rest with
      | .setting _ _, [] => p.takeOption spec none
      | .setting _ _, '=' :: value => p.takeOption spec (some (String.ofList value))
      | .setting _ _, value => p.takeOption spec (some (String.ofList value))
      | _, _ => do c.takeShort (← p.takeOption spec none) rest

def takeOperand (c : CommandSpec) (p : Parsed) (value : String) : Except Usage Parsed := do
  if ¬ c.hasOperand ∨ p.operandSeen then throw .unknownArgument
  return { ← p.resolve with pending := some (.operand value), operandSeen := true }

def takeArgument (c : CommandSpec) (p : Parsed) (argument : String) : Except Usage Parsed :=
  if p.operandsOnly then c.takeOperand p argument
  else
    match argument.toList with
    | ['-', '-'] => .ok { p with operandsOnly := true }
    | '-' :: '-' :: name => c.takeLong p name
    | '-' :: name :: rest => c.takeShort p (name :: rest)
    -- What does not start with a dash, and a dash alone.
    | _ =>
      match p.pending with
      | some (.option spec none) =>
        .ok { p with pending := some (.option spec (some argument)) }
      | _ => c.takeOperand p argument

def parse (c : CommandSpec) (arguments : List String) : Except Usage Parsed := do
  let p ← (← arguments.foldlM c.takeArgument {}).resolve
  if c.hasOperand ∧ p.operand = none then throw .missingRequiredArgument
  return p

end CommandSpec

end BlockMachine
