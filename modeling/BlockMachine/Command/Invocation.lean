import BlockMachine.Command.Assembler
import BlockMachine.Command.Runner

/-! # Commands as called

A command is called with arguments and a choice of what is logged.  It ends with an exit status,
after printing to its two output streams and changing files; arguments that are refused, or that
ask for information about the command, end it before it does anything.
-/

namespace BlockMachine

/-- How a call of a command ends. -/
inductive Invocation
  | usage (status : Nat) (usage : Usage)
  | done (status : Nat) (stdout : String) (stderr : List String) (store : FileStore)
  deriving DecidableEq, Repr

/-- Calls the assembler; none when the fuel is used up.  The log is set by the arguments, unless
`logging` sets it. -/
def Assembler.invoke (fuel : Nat) (arguments : List String) (logging : Option Log.Filter)
    (s : FileStore) : Option Invocation :=
  match Request.ofArguments arguments with
  | .error usage => some (.usage (if usage.isInformation then 0 else 1) usage)
  | .ok request =>
    let filter := logging.getD (.ofVerbosity request.verbosity)
    (perform request fuel filter s).map fun report =>
      let errors :=
        match report.failure with
        | none => []
        | some failure => s!"Error: {failure.message}".splitToList (· == '\n')
      .done report.status report.stdout (filter.lines report.log ++ errors) report.store

/-- Calls the runner; none when the fuel is used up.  The log is set by the arguments, unless
`logging` sets it. -/
def Runner.invoke (fuel : Nat) (arguments : List String) (logging : Option Log.Filter)
    (s : FileStore) : Option Invocation :=
  match Request.ofArguments arguments with
  | .error usage => some (.usage (if usage.isInformation then 0 else 2) usage)
  | .ok request =>
    let filter := logging.getD request.logging
    (perform request fuel filter s).map fun report =>
      .done report.status report.stdout (filter.lines report.log) s

end BlockMachine
