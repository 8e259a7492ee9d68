import BlockMachine.Files.Storage
import BlockMachine.Machine.Journal

/-! # Executing programs

Programs are executed under settings, which have to allow at least one value on the stack and one
block at a time.

* `Settings.check` — the first thing wrong with settings;
* `Settings.execute`, `Settings.executeFile` — the value that a program gives;
* `Settings.executionLog`, `Settings.fileLog` — what executing writes to the log.
-/

namespace BlockMachine

/-- Limits of a run and what it writes to the log. -/
structure Settings where
  limits : Limits := {}
  /-- whether the start and the end of a run are logged -/
  debug : Bool := false
  /-- whether every instruction is logged -/
  trace : Bool := false
  deriving DecidableEq, Repr

inductive SettingsError
  | noCapacity
  | noCallDepth
  deriving DecidableEq, Repr

inductive ExecutionError
  | fault (fault : Fault)
  | image (error : ImageError)
  | settings (error : SettingsError)
  deriving DecidableEq, Repr

def SettingsError.message : SettingsError → String
  | noCapacity => "stack capacity must be at least 1"
  | noCallDepth => "max call depth must be at least 1"

def ExecutionError.message : ExecutionError → String
  | fault f => s!"VM error: {f.message}"
  | image e => s!"Bytecode format error: {e.message}"
  | settings e => s!"Runtime configuration error: {e.message}"

/-- The value that executing gives, if it gives one, or why it failed; none when the fuel was used
up before the end. -/
abbrev ExecutionResult := Option (Except ExecutionError (Option Value))

namespace Settings

/-- Whether settings can be used. -/
def check (settings : Settings) : Except SettingsError Unit :=
  if settings.limits.stackCapacity = 0 then .error .noCapacity
  else if settings.limits.maxCallDepth = 0 then .error .noCallDepth
  else .ok ()

def execute (settings : Settings) (fuel : Nat) (p : Program) : ExecutionResult :=
  match p.run settings.limits fuel with
  | .stopped (.ok v) _ => some (.ok v)
  | .stopped (.error f) _ => some (.error (.fault f))
  | .outOfFuel => none

def executeFile (settings : Settings) (fuel : Nat) (s : FileStore) (path : String) :
    ExecutionResult :=
  match s.load path with
  | .error e => some (.error (.image e))
  | .ok p => settings.execute fuel p

def executionLog (settings : Settings) (fuel : Nat) (p : Program) : List Log.Entry :=
  let m := Machine.new p settings.limits
  let start : List Log.Entry :=
    if settings.debug then [⟨.info, "executing program", p.sizeFields⟩] else []
  let finish : List Log.Entry :=
    match settings.debug, settings.execute fuel p with
    | true, some (.ok v) =>
      [⟨.info, "execution completed", [("result", Value.debugResult v)]⟩]
    | _, _ => []
  start ++ Journal.ofRun m settings.trace fuel ++ finish

def fileLog (settings : Settings) (fuel : Nat) (s : FileStore) (path : String) : List Log.Entry :=
  match s.load path with
  | .error _ => []
  | .ok p => loadedEntry path p :: settings.executionLog fuel p

end Settings

end BlockMachine
