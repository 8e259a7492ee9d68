import BlockMachine.Command.Options
import BlockMachine.Execution
import BlockMachine.Program.Listing

/-! # The runner command

Runs the program in a file, or shows its listing.

* `Runner.Request` — what the arguments ask for;
* `Runner.perform` — the work of one request on a file store.
-/

namespace BlockMachine.Runner

def spec : CommandSpec where
  options :=
    [ ⟨"trace", none, .flag⟩,
      ⟨"stack-capacity", none, .setting .number true⟩,
      ⟨"max-call-depth", none, .setting .number true⟩,
      ⟨"disasm", none, .flag⟩,
      ⟨"verbose", some 'v', .counter⟩,
      ⟨"help", some 'h', .information .displayHelp⟩,
      ⟨"version", some 'V', .information .displayVersion⟩ ]
  hasOperand := true

structure Request where
  file : String
  trace : Bool
  limits : Limits
  disasm : Bool
  verbosity : Nat
  deriving DecidableEq, Repr

namespace Request

def ofArguments (arguments : List String) : Except Usage Request := do
  let p ← spec.parse arguments
  let limits : Limits := {}
  return {
    file := p.operand.getD ""
    trace := p.has "trace"
    limits := {
      stackCapacity := (p.number? "stack-capacity").getD limits.stackCapacity
      maxCallDepth := (p.number? "max-call-depth").getD limits.maxCallDepth }
    disasm := p.has "disasm"
    verbosity := p.count "verbose" }

def settings (r : Request) : Settings :=
  { limits := r.limits, debug := 0 < r.verbosity, trace := r.trace }

/-- The log that is asked for; tracing asks for everything. -/
def logging (r : Request) : Log.Filter :=
  if r.trace then .upTo .trace else .ofVerbosity r.verbosity

end Request

structure Report where
  status : Nat
  stdout : String
  log : List Log.Entry
  deriving DecidableEq, Repr

/-- The report of a request that failed with a message, behind what was logged before. -/
def Report.failed (log : List Log.Entry) (message : String) : Report :=
  ⟨1, "", log ++ [⟨.error, message, []⟩]⟩

def list (r : Request) (s : FileStore) : Report :=
  match s.load r.file with
  | .ok p => ⟨0, p.listing, [loadedEntry r.file p]⟩
  | .error e => .failed [] s!"Failed to load {r.file}: {e.message}"

/-- Runs a program; none when the fuel is used up. -/
def run (r : Request) (fuel : Nat) (filter : Log.Filter) (s : FileStore) : Option Report :=
  match r.settings.check with
  | .error e => some (.failed [] (ExecutionError.settings e).message)
  | .ok () =>
    let log := if filter.shows .info then r.settings.fileLog fuel s r.file else []
    (r.settings.executeFile fuel s r.file).map fun
      | .ok v => ⟨0, Value.resultText v ++ "\n", log⟩
      | .error e => .failed log s!"Execution failed: {e.message}"

/-- Carries out a request; none when the program it runs uses up the fuel.  Log lines that cost as
much as the run itself are made only if the filter shows them. -/
def perform (r : Request) (fuel : Nat) (filter : Log.Filter) (s : FileStore) : Option Report :=
  if r.disasm then some (list r s) else run r fuel filter s

end BlockMachine.Runner
