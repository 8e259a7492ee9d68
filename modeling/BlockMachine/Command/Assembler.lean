import BlockMachine.Assembly
import BlockMachine.Command.Options
import BlockMachine.Execution
import BlockMachine.Program.JsonText
import BlockMachine.Program.Listing

/-! # The assembler command

Assembles a source file, writes the program to a file, and on request shows its tokens, its JSON
text or its listing, and runs it.  Work stops at the first stage that fails, and each kind of
failure has its exit status.

* `Assembler.Request` — what the arguments ask for;
* `Assembler.Failure` — why a request fails, with the exit status and the wording;
* `Assembler.perform` — the work of one request on a file store.
-/

namespace BlockMachine.Assembler

/-- The names and versions of the two commands. -/
def versions : String :=
  "koala-asm 0.1.0\nkoala-vm 0.1.0\n"

def spec : CommandSpec where
  options :=
    [ ⟨"path", some 'p', .setting .path false⟩,
      ⟨"symbol", some 's', .setting .text false⟩,
      ⟨"output", some 'o', .setting .path true⟩,
      ⟨"run", none, .flag⟩,
      ⟨"disasm", none, .flag⟩,
      ⟨"json", none, .flag⟩,
      ⟨"tokens", none, .flag⟩,
      ⟨"version", none, .flag⟩,
      ⟨"verbose", some 'v', .counter⟩,
      ⟨"help", some 'h', .information .displayHelp⟩ ]
  hasOperand := false

/-- What is asked for.  The source path and the entry label may be asked for without being
given. -/
structure Request where
  path : Option (Option String)
  symbol : Option (Option String)
  output : Option String
  run : Bool
  disasm : Bool
  json : Bool
  tokens : Bool
  version : Bool
  verbosity : Nat
  deriving DecidableEq, Repr

def Request.ofArguments (arguments : List String) : Except Usage Request := do
  let p ← spec.parse arguments
  return {
    path := p.value? "path"
    symbol := p.value? "symbol"
    output := (p.value? "output").join
    run := p.has "run"
    disasm := p.has "disasm"
    json := p.has "json"
    tokens := p.has "tokens"
    version := p.has "version"
    verbosity := p.count "verbose" }

inductive Failure
  | pathWithoutValue
  | noPath
  | symbolWithoutValue
  | sourceNotFound (path : String)
  | sourceUnreadable (path : String) (fault : IoFault)
  | assembly (error : AssemblyError)
  | outputUnwritable (path : String) (error : ImageError)
  | run (fault : Fault)
  deriving DecidableEq, Repr

namespace Failure

def status : Failure → Nat
  | pathWithoutValue | symbolWithoutValue => 1
  | noPath | sourceNotFound _ => 2
  | sourceUnreadable _ _ => 3
  | assembly (.scan _) => 4
  | assembly (.layout _) => 5
  | assembly (.read _) => 6
  | run _ => 7
  | outputUnwritable _ _ => 8

/-- The wording of a failure.  A cause that is reported by another one is named behind it. -/
def message : Failure → String
  | pathWithoutValue => "missing file path after -p"
  | noPath => "no source file given, use -p <path>"
  | symbolWithoutValue => "missing entry label after -s"
  | sourceNotFound path => s!"file {path} not found"
  | sourceUnreadable path fault => s!"failed to open {path}: {fault.message}"
  | assembly (.scan rejections) => (AssemblyError.scan rejections).message
  | assembly (.read error) => s!"{(AssemblyError.read error).message}: {error.message}"
  | assembly (.layout error) => s!"{(AssemblyError.layout error).message}: {error.message}"
  | outputUnwritable path (.io fault) =>
    s!"failed to write {path}: {(ImageError.io fault).message}: {fault.message}"
  | outputUnwritable path error => s!"failed to write {path}: {error.message}"
  | run fault => fault.message

end Failure

/-- What came of a request: the failure that ended it, what was printed and logged, and the files
afterwards. -/
structure Report where
  failure : Option Failure := none
  stdout : String := ""
  log : List Log.Entry := []
  store : FileStore
  deriving DecidableEq, Repr

namespace Report

def status (r : Report) : Nat :=
  (r.failure.map Failure.status).getD 0

def fail (r : Report) (failure : Failure) : Report :=
  { r with failure := some failure }

def print (r : Report) (text : String) : Report :=
  { r with stdout := r.stdout ++ text }

def printIf (r : Report) (asked : Bool) (text : Unit → String) : Report :=
  if asked then r.print (text ()) else r

def note (r : Report) (entries : List Log.Entry) : Report :=
  { r with log := r.log ++ entries }

end Report

namespace Request

def source (r : Request) : Except Failure (String × String) := do
  let path ← match r.path with
    | some (some path) => pure path
    | some none => throw .pathWithoutValue
    | none => throw .noPath
  match r.symbol with
  | none => return (path, defaultEntry)
  | some (some entry) => return (path, entry)
  | some none => throw .symbolWithoutValue

def sourceText (s : FileStore) (path : String) : Except Failure String :=
  if s.pathExists path then (s.readText path).mapError (.sourceUnreadable path)
  else .error (.sourceNotFound path)

def outputPath (r : Request) (source : String) : String :=
  r.output.getD (Path.withExtension source "kbc")

end Request

/-- A source that has been scanned: its path, the label of its entry block, and its tokens. -/
structure Task where
  path : String
  entry : String
  tokens : List Token
  deriving DecidableEq, Repr

/-- The stages up to the tokens. -/
def Request.task (r : Request) (s : FileStore) : Except Failure Task := do
  let (path, entry) ← r.source
  let text ← Request.sourceText s path
  let tokens ← (tokenize text).mapError .assembly
  return ⟨path, entry, tokens⟩

/-- Runs the program that has been written; none when the fuel is used up. -/
def runProgram (r : Report) (fuel : Nat) (filter : Log.Filter) (p : Program) : Option Report :=
  let limits : Limits := {}
  let r :=
    if filter.shows .debug then r.note (Journal.ofRun (Machine.new p limits) false fuel) else r
  match p.run limits fuel with
  | .outOfFuel => none
  | .stopped (.error f) _ => some (r.fail (.run f))
  | .stopped (.ok v) _ => some (r.print (Value.resultText v ++ "\n"))

/-- Shows, writes and runs a program. -/
def finish (request : Request) (fuel : Nat) (filter : Log.Filter) (task : Task) (p : Program)
    (r : Report) : Option Report :=
  let r := r.note
    [⟨.info, s!"assembled {task.path}", ("entry", task.entry) :: p.sizeFields⟩]
  let r := r.printIf request.json fun _ => p.json ++ "\n"
  let r := r.printIf request.disasm fun _ => p.listing
  let output := request.outputPath task.path
  match r.store.save p output with
  | .error e => some (r.fail (.outputUnwritable output e))
  | .ok store =>
    let r := { r with store }.note [savedEntry output p]
    if request.run then runProgram r fuel filter p else some r

/-- Carries out a request; none when the program it runs uses up the fuel.  Log lines that cost as
much as the run itself are made only if the filter shows them. -/
def perform (request : Request) (fuel : Nat) (filter : Log.Filter) (s : FileStore) :
    Option Report :=
  let r : Report := { store := s }
  if request.version then some (r.print versions)
  else
    match request.task s with
    | .error failure => some (r.fail failure)
    | .ok task =>
      if request.tokens then some (r.print (String.join (task.tokens.map Token.line)))
      else
        let r := r.note (assemblyLog task.tokens task.entry)
        match assembleTokens task.tokens task.entry with
        | .error e => some (r.fail (.assembly e))
        | .ok p => finish request fuel filter task p r

end BlockMachine.Assembler
