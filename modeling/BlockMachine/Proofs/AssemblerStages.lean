import BlockMachine.Command.Assembler
import BlockMachine.Proofs.FileWrites

/-! # How the assembler command ends

A request is worked on in stages.  What each stage works on follows from the request and the files
alone, and so does whether it fails; that the stages are gone through one after the other shows in
the exit status, which is that of the first stage that fails, and in the files, of which none is
touched before the program is saved.

* `Stage`, `Request.stages` — the stages, and those that a request goes through;
* `Request.stageStatus` — the exit status of a stage that fails, each stage looked at by itself;
* `Request.status` — the exit status of the first stage that fails;
* `Request.WritesImage` — the one file that is written, and what is in it;
* `Request.Reaches`, `Request.Answers` — what a request has come to before its run, and at its end;
* `status_and_files_of_perform` — how a request ends.
-/

namespace BlockMachine.Assembler

/-! ## Stages -/

inductive Stage
  | path
  | symbol
  | lookup
  | text
  | scan
  | read
  | layout
  | save
  | run
  deriving DecidableEq, Repr

/-- The exit status of a step that may fail. -/
def failsWith {ε α : Type} (status : Nat) : Except ε α → Option Nat
  | .ok _ => none
  | .error _ => some status

theorem eq_of_failsWith {ε α : Type} {status n : Nat} {x : Except ε α}
    (h : failsWith status x = some n) : n = status := by
  cases x with
  | ok a => cases h
  | error e => exact (Option.some.inj h).symm

namespace Request

/-- The stages up to the tokens. -/
def opening : List Stage :=
  [.path, .symbol, .lookup, .text, .scan]

/-- The stages that a request goes through unless one of them fails. -/
def stages (request : Request) : List Stage :=
  if request.version then []
  else if request.tokens then opening
  else opening ++ [.read, .layout] ++ [.save] ++ if request.run then [.run] else []

def entry (request : Request) : String :=
  request.symbol.join.getD defaultEntry

/-! What the stages work on, as far as it is there. -/

def text? (request : Request) (s : FileStore) : Option String := do
  (s.readText (← request.path.join)).toOption

def tokens? (request : Request) (s : FileStore) : Option (List Token) := do
  (tokenize (← request.text? s)).toOption

def forest? (request : Request) (s : FileStore) : Option (List CodeBlock) := do
  (readTokens (← request.tokens? s)).toOption

def program? (request : Request) (s : FileStore) : Option Program := do
  (assembleBlocks (CodeBlock.flattenAll (← request.forest? s)) request.entry).toOption

def stageStatus (request : Request) (fuel : Nat) (s : FileStore) : Stage → Option Nat
  | .path =>
    match request.path with
    | some (some _) => none
    | some none => some 1
    | none => some 2
  | .symbol => if request.symbol = some none then some 1 else none
  | .lookup => do if s.pathExists (← request.path.join) then none else some 2
  | .text => do failsWith 3 (s.readText (← request.path.join))
  | .scan => do failsWith 4 (tokenize (← request.text? s))
  | .read => do failsWith 6 (readTokens (← request.tokens? s))
  | .layout => do
    failsWith 5 (assembleBlocks (CodeBlock.flattenAll (← request.forest? s)) request.entry)
  | .save => do
    failsWith 8 (s.save (← request.program? s) (request.outputPath (← request.path.join)))
  | .run => do
    match (← request.program? s).run {} fuel with
    | .stopped (.error _) _ => some 7
    | _ => none

/-- The exit status of the first stage that fails. -/
def status (request : Request) (fuel : Nat) (s : FileStore) : Nat :=
  (request.stages.findSome? (request.stageStatus fuel s)).getD 0

/-- The run is reached, and uses up the fuel. -/
def RunsOut (request : Request) (fuel : Nat) (s : FileStore) : Prop :=
  .run ∈ request.stages ∧ request.stages.findSome? (request.stageStatus fuel s) = none ∧
    ∃ p, request.program? s = some p ∧ p.run {} fuel = .outOfFuel

/-- Nothing has changed but one file, which holds the image of what the source is assembled to. -/
def WritesImage (request : Request) (s s' : FileStore) : Prop :=
  ∃ path source p image l, request.path = some (some path) ∧ s.readText path = .ok source ∧
    assemble source request.entry = .ok p ∧ Image.encode p = .ok image ∧
    s.target (request.outputPath path) = .ok l ∧ s.Wrote s' l image ∧
    s'.read (request.outputPath path) = .ok image

end Request

/-! ## Reports -/

namespace Report

variable (r : Report)

@[simp] theorem store_note (entries : List Log.Entry) : (r.note entries).store = r.store := rfl

@[simp] theorem failure_note (entries : List Log.Entry) : (r.note entries).failure = r.failure := rfl

@[simp] theorem store_printIf (asked : Bool) (text : Unit → String) :
    (r.printIf asked text).store = r.store := by
  cases asked <;> rfl

@[simp] theorem failure_printIf (asked : Bool) (text : Unit → String) :
    (r.printIf asked text).failure = r.failure := by
  cases asked <;> rfl

theorem status_of_none {r : Report} (h : r.failure = none) : r.status = 0 := by
  rw [status, h]
  rfl

end Report

/-! ## Stages one by one

The stages that a part of the work is made of fail when that part does, and with its exit status. -/

theorem tokenize_eq_error {source : String} {e : AssemblyError} (h : tokenize source = .error e) :
    ∃ rejections, e = .scan rejections := by
  simp only [tokenize] at h
  split at h
  · cases h
  · exact ⟨_, (Except.error.inj h).symm⟩

namespace Request

variable {request : Request} {s : FileStore} {fuel : Nat} {path source : String}
  {ts : List Token} {p : Program}

theorem source_status (request : Request) (fuel : Nat) (s : FileStore) :
    [Stage.path, .symbol].findSome? (request.stageStatus fuel s) =
      (fault? request.source).map Failure.status := by
  simp only [List.findSome?_cons, List.findSome?_nil, stageStatus, Request.source]
  cases request.path with
  | none => rfl
  | some given =>
    cases given with
    | none => rfl
    | some path =>
      cases request.symbol with
      | none => rfl
      | some given => cases given <;> rfl

theorem source_eq_ok {label : String} (h : request.source = .ok (path, label)) :
    request.path = some (some path) ∧ label = request.entry := by
  simp only [Request.source] at h
  cases hpath : request.path with
  | none => rw [hpath] at h; cases h
  | some given =>
    cases given with
    | none => rw [hpath] at h; cases h
    | some path' =>
      rw [entry]
      cases hsymbol : request.symbol with
      | none => rw [hpath, hsymbol] at h; cases h; exact ⟨rfl, rfl⟩
      | some given =>
        cases given with
        | none => rw [hpath, hsymbol] at h; cases h
        | some label => rw [hpath, hsymbol] at h; cases h; exact ⟨rfl, rfl⟩

theorem sourceText_status (hpath : request.path = some (some path)) (fuel : Nat) (s : FileStore) :
    [Stage.lookup, .text].findSome? (request.stageStatus fuel s) =
      (fault? (sourceText s path)).map Failure.status := by
  cases hfound : s.pathExists path with
  | false => simp [stageStatus, sourceText, hpath, hfound, fault?, Failure.status]
  | true =>
    simp only [List.findSome?_cons, List.findSome?_nil, stageStatus, sourceText, hpath, hfound,
      Option.join_some, Option.bind_eq_bind, Option.bind_some, if_true]
    cases s.readText path <;> rfl

theorem sourceText_eq_ok (h : sourceText s path = .ok source) : s.readText path = .ok source := by
  rw [sourceText] at h
  split at h
  · exact mapError_eq_ok h
  · cases h

theorem scan_status (htext : request.text? s = some source) (fuel : Nat) :
    [Stage.scan].findSome? (request.stageStatus fuel s) =
      (fault? ((tokenize source).mapError Failure.assembly)).map Failure.status := by
  simp only [List.findSome?_cons, List.findSome?_nil, stageStatus, htext, Option.bind_eq_bind,
    Option.bind_some]
  cases htokens : tokenize source with
  | ok ts => rfl
  | error e =>
    obtain ⟨rejections, rfl⟩ := tokenize_eq_error htokens
    rfl

theorem assembly_status (htokens : request.tokens? s = some ts) (fuel : Nat) :
    [Stage.read, .layout].findSome? (request.stageStatus fuel s) =
      (fault? ((assembleTokens ts request.entry).mapError Failure.assembly)).map
        Failure.status := by
  simp only [List.findSome?_cons, List.findSome?_nil, stageStatus, forest?, htokens,
    assembleTokens, Option.bind_eq_bind, Option.bind_some]
  cases readTokens ts with
  | error e => rfl
  | ok forest =>
    simp only [Except.toOption, Option.bind_some, Except.mapError, bind, Except.bind, failsWith]
    cases assembleBlocks (CodeBlock.flattenAll forest) request.entry <;> rfl

theorem save_status (hpath : request.path = some (some path)) (hprogram : request.program? s = some p)
    (fuel : Nat) :
    [Stage.save].findSome? (request.stageStatus fuel s) =
      (fault? ((s.save p (request.outputPath path)).mapError
        (Failure.outputUnwritable (request.outputPath path)))).map Failure.status := by
  simp only [List.findSome?_cons, List.findSome?_nil, stageStatus, hpath, hprogram,
    Option.join_some, Option.bind_eq_bind, Option.bind_some]
  cases s.save p (request.outputPath path) <;> rfl

/-- Only the run ends with its exit status. -/
theorem status_of_stages {front : List Stage} {status : Nat}
    (h : front.findSome? (request.stageStatus fuel s) = some status) (hrun : .run ∉ front) :
    status ∈ [1, 2, 3, 4, 5, 6, 8] := by
  obtain ⟨stage, hmem, hstage⟩ := List.exists_of_findSome?_eq_some h
  cases stage with
  | path =>
    simp only [stageStatus] at hstage
    split at hstage <;> simp_all
  | symbol =>
    simp only [stageStatus] at hstage
    split at hstage <;> simp_all
  | lookup =>
    obtain ⟨path, -, hstage⟩ := Option.bind_eq_some_iff.1 hstage
    split at hstage <;> simp_all
  | text | scan | read | layout =>
    obtain ⟨_, -, hstage⟩ := Option.bind_eq_some_iff.1 hstage
    simp [eq_of_failsWith hstage]
  | save =>
    obtain ⟨p, -, hstage⟩ := Option.bind_eq_some_iff.1 hstage
    obtain ⟨path, -, hstage⟩ := Option.bind_eq_some_iff.1 hstage
    simp [eq_of_failsWith hstage]
  | run => exact absurd hmem hrun

/-! ## Parts of a request -/

theorem text?_eq (hpath : request.path = some (some path)) (htext : s.readText path = .ok source) :
    request.text? s = some source := by
  simp [text?, hpath, htext, Except.toOption]

theorem tokens?_eq (htext : request.text? s = some source) (htokens : tokenize source = .ok ts) :
    request.tokens? s = some ts := by
  simp [tokens?, htext, htokens, Except.toOption]

theorem program?_eq (htokens : request.tokens? s = some ts)
    (hassembles : assembleTokens ts request.entry = .ok p) : request.program? s = some p := by
  rw [assembleTokens] at hassembles
  obtain ⟨forest, hforest, hblocks⟩ := bind_eq_ok hassembles
  simp [program?, forest?, htokens, mapError_eq_ok hforest, mapError_eq_ok hblocks,
    Except.toOption]

theorem task_eq_ok {task : Task} (h : request.task s = .ok task) :
    request.path = some (some task.path) ∧ task.entry = request.entry ∧
      ∃ source, s.readText task.path = .ok source ∧ tokenize source = .ok task.tokens := by
  rw [Request.task] at h
  obtain ⟨⟨path, label⟩, hsource, h⟩ := bind_eq_ok h
  obtain ⟨source, htext, h⟩ := bind_eq_ok h
  obtain ⟨ts, htokens, h⟩ := bind_eq_ok h
  cases h
  obtain ⟨hpath, hentry⟩ := source_eq_ok hsource
  exact ⟨hpath, hentry, source, sourceText_eq_ok htext, mapError_eq_ok htokens⟩

theorem task_status (request : Request) (fuel : Nat) (s : FileStore) :
    opening.findSome? (request.stageStatus fuel s) =
      (fault? (request.task s)).map Failure.status := by
  have hopening : opening = [.path, .symbol] ++ ([.lookup, .text] ++ [.scan]) := rfl
  rw [hopening, List.findSome?_append, List.findSome?_append, source_status, Request.task]
  cases hsource : request.source with
  | error failure => rfl
  | ok given =>
    obtain ⟨path, label⟩ := given
    obtain ⟨hpath, -⟩ := source_eq_ok hsource
    rw [sourceText_status hpath]
    simp only [bind, Except.bind]
    cases htext : sourceText s path with
    | error failure => rfl
    | ok source =>
      rw [scan_status (text?_eq hpath (sourceText_eq_ok htext))]
      simp only
      cases tokenize source <;> rfl

end Request

/-! ## The end of a request -/

/-- How a request ends: its exit status, and which files have changed. -/
structure Request.Ends (request : Request) (fuel : Nat) (s : FileStore) (report : Report) :
    Prop where
  status : report.status = request.status fuel s
  untouched : request.version ∨ request.tokens ∨ report.status ∈ [1, 2, 3, 4, 5, 6, 8] →
    report.store = s
  written : ¬ request.version → ¬ request.tokens → report.status = 0 ∨ report.status = 7 →
    request.WritesImage s report.store

/-- A report on how the request ends, or none when its run uses up the fuel. -/
inductive Request.Answers (request : Request) (fuel : Nat) (s : FileStore) : Option Report → Prop
  | report {r : Report} (hends : request.Ends fuel s r) (hstops : ¬ request.RunsOut fuel s) :
      Answers request fuel s (some r)
  | outOfFuel (hruns : request.RunsOut fuel s) : Answers request fuel s none

variable {request : Request} {fuel : Nat} {filter : Log.Filter} {s s' : FileStore} {p : Program}
  {r : Report}

/-- A stage has failed before anything was run. -/
theorem ends_of_failure {front back : List Stage} {failure : Failure}
    (hstages : request.stages = front ++ back) (hrun : .run ∉ front)
    (hstatus : front.findSome? (request.stageStatus fuel s) = some failure.status)
    (hstore : r.store = s) : request.Ends fuel s (r.fail failure) where
  status := by
    rw [Request.status, hstages, List.findSome?_append, hstatus]
    rfl
  untouched := fun _ => hstore
  written := by
    intro _ _ h
    -- No stage before the run ends with a status that promises a file.
    have hmem : failure.status ∈ [1, 2, 3, 4, 5, 6, 8] := Request.status_of_stages hstatus hrun
    have hstatus : failure.status = 0 ∨ failure.status = 7 := h
    obtain h | h := hstatus
    · simp [h] at hmem
    · simp [h] at hmem

/-- A request that has come to its end has written the image. -/
theorem ends_of_written {front back : List Stage} {report : Report} (hversion : ¬ request.version)
    (htokens : ¬ request.tokens) (hstages : request.stages = front ++ back)
    (hfront : front.findSome? (request.stageStatus fuel s) = none)
    (hstatus : report.status = (back.findSome? (request.stageStatus fuel s)).getD 0)
    (hend : report.status = 0 ∨ report.status = 7)
    (hwrites : request.WritesImage s report.store) : request.Ends fuel s report where
  status := by
    rw [hstatus, Request.status, hstages, List.findSome?_append, hfront]
    rfl
  untouched := by
    rintro (h | h | h)
    · exact absurd h hversion
    · exact absurd h htokens
    · obtain hend | hend := hend
      · simp [hend] at h
      · simp [hend] at h
  written := fun _ _ _ => hwrites

theorem writesImage_of_save {path source : String} (hpath : request.path = some (some path))
    (htext : s.readText path = .ok source) (hassembles : assemble source request.entry = .ok p)
    (hsave : s.save p (request.outputPath path) = .ok s') : request.WritesImage s s' := by
  obtain ⟨image, hencode, hwrite⟩ := FileStore.save_inv hsave
  obtain ⟨l, htarget, hwrote⟩ := FileStore.write_inv hwrite
  exact ⟨path, source, p, image, l, hpath, htext, hassembles, hencode, htarget, hwrote,
    FileStore.read_of_write hwrite⟩

/-! ## The steps of a request -/

theorem perform_of_task_error (hversion : ¬ request.version) {failure : Failure}
    (htask : request.task s = .error failure) (fuel : Nat) (filter : Log.Filter) :
    perform request fuel filter s = some (Report.fail { store := s } failure) := by
  simp only [perform, if_neg hversion, htask]

theorem perform_of_tokens (hversion : ¬ request.version) (htokens : request.tokens) {task : Task}
    (htask : request.task s = .ok task) (fuel : Nat) (filter : Log.Filter) :
    perform request fuel filter s =
      some (Report.print { store := s } (String.join (task.tokens.map Token.line))) := by
  simp only [perform, if_neg hversion, htask, if_pos htokens]

theorem perform_of_assembly_error (hversion : ¬ request.version) (htokens : ¬ request.tokens)
    {task : Task} (htask : request.task s = .ok task) {e : AssemblyError}
    (hassembles : assembleTokens task.tokens task.entry = .error e) (fuel : Nat)
    (filter : Log.Filter) :
    ∃ r : Report, perform request fuel filter s = some (r.fail (.assembly e)) ∧ r.store = s := by
  simp only [perform, if_neg hversion, htask, if_neg htokens, hassembles]
  exact ⟨_, rfl, rfl⟩

theorem perform_of_assembled (hversion : ¬ request.version) (htokens : ¬ request.tokens)
    {task : Task} (htask : request.task s = .ok task)
    (hassembles : assembleTokens task.tokens task.entry = .ok p) (fuel : Nat)
    (filter : Log.Filter) :
    ∃ r : Report, perform request fuel filter s = finish request fuel filter task p r ∧
      r.store = s ∧ r.failure = none := by
  simp only [perform, if_neg hversion, htask, if_neg htokens, hassembles]
  exact ⟨_, rfl, rfl, rfl⟩

theorem finish_of_error (hstore : r.store = s) {task : Task} {e : ImageError}
    (h : s.save p (request.outputPath task.path) = .error e) :
    ∃ r' : Report, finish request fuel filter task p r =
      some (r'.fail (.outputUnwritable (request.outputPath task.path) e)) ∧ r'.store = s := by
  simp only [finish, Report.store_printIf, Report.store_note, hstore, h]
  exact ⟨_, rfl, by simpa using hstore⟩

theorem finish_of_ok (hstore : r.store = s) {task : Task}
    (h : s.save p (request.outputPath task.path) = .ok s') :
    ∃ r' : Report, finish request fuel filter task p r =
      (if request.run then runProgram r' fuel filter p else some r') ∧
      r'.store = s' ∧ r'.failure = r.failure := by
  simp only [finish, Report.store_printIf, Report.store_note, hstore, h]
  exact ⟨_, rfl, by simp⟩

/-- What a request has come to before its run, by the exit status of the stages up to there: one of
them has failed and is reported, or the image has been written. -/
inductive Request.Reaches (request : Request) (fuel : Nat) (filter : Log.Filter) (s : FileStore) :
    Option Nat → Option Report → Prop
  | failed {failure : Failure} {r : Report} (hstore : r.store = s) :
      Reaches request fuel filter s (some failure.status) (some (r.fail failure))
  | written {p : Program} {r : Report} (hprogram : request.program? s = some p)
      (hwrites : request.WritesImage s r.store) (hfailure : r.failure = none) :
      Reaches request fuel filter s none
        (if request.run then runProgram r fuel filter p else some r)

theorem reaches_of_assembled {task : Task} {source : String}
    (hpath : request.path = some (some task.path)) (htext : s.readText task.path = .ok source)
    (hassembles : assemble source request.entry = .ok p) (hprogram : request.program? s = some p)
    (hstore : r.store = s) (hfailure : r.failure = none) :
    request.Reaches fuel filter s ([Stage.save].findSome? (request.stageStatus fuel s))
      (finish request fuel filter task p r) := by
  rw [Request.save_status hpath hprogram]
  cases hsave : s.save p (request.outputPath task.path) with
  | error e =>
    obtain ⟨r', hfinish, hstore'⟩ := finish_of_error hstore hsave
    rw [hfinish]
    exact .failed hstore'
  | ok s' =>
    obtain ⟨r', hfinish, rfl, hfailure'⟩ := finish_of_ok hstore hsave
    rw [hfinish]
    exact .written hprogram (writesImage_of_save hpath htext hassembles hsave)
      (hfailure'.trans hfailure)

theorem perform_reaches (hversion : ¬ request.version) (htokens : ¬ request.tokens) (fuel : Nat)
    (filter : Log.Filter) (s : FileStore) :
    request.Reaches fuel filter s
      (List.findSome? (request.stageStatus fuel s) (Request.opening ++ [.read, .layout] ++ [.save]))
      (perform request fuel filter s) := by
  rw [List.findSome?_append, List.findSome?_append, Request.task_status, Option.or_assoc]
  -- The status of a later part can be told only once the parts before it have given what it works
  -- on, so each part is split on before the status of the next one is rewritten.
  cases htask : request.task s with
  | error failure =>
    rw [perform_of_task_error hversion htask]
    exact .failed rfl
  | ok task =>
    obtain ⟨hpath, hentry, source, htext, htokenize⟩ := Request.task_eq_ok htask
    have htokens? := Request.tokens?_eq (Request.text?_eq hpath htext) htokenize
    rw [Request.assembly_status htokens?, ← hentry]
    cases hassembles : assembleTokens task.tokens task.entry with
    | error e =>
      obtain ⟨r, hperform, hstore⟩ :=
        perform_of_assembly_error hversion htokens htask hassembles fuel filter
      rw [hperform]
      exact .failed hstore
    | ok p =>
      obtain ⟨r, hperform, hstore, hfailure⟩ :=
        perform_of_assembled hversion htokens htask hassembles fuel filter
      rw [hentry] at hassembles
      have hsource : assemble source request.entry = .ok p := by
        rw [assemble, htokenize]
        exact hassembles
      have hprogram := Request.program?_eq htokens? hassembles
      rw [hperform]
      exact reaches_of_assembled hpath htext hsource hprogram hstore hfailure

/-! ## The run -/

theorem runProgram_of_value {v : Option Value} {stack : Stack}
    (h : p.run {} fuel = .stopped (.ok v) stack) (r : Report) (filter : Log.Filter) :
    ∃ r' : Report, runProgram r fuel filter p = some r' ∧ r'.store = r.store ∧
      r'.failure = r.failure := by
  simp only [runProgram, h]
  refine ⟨_, rfl, ?_⟩
  split
  · exact ⟨rfl, rfl⟩
  · exact ⟨rfl, rfl⟩

theorem runProgram_of_fault {f : Fault} {stack : Stack}
    (h : p.run {} fuel = .stopped (.error f) stack) (r : Report) (filter : Log.Filter) :
    ∃ r' : Report, runProgram r fuel filter p = some (r'.fail (.run f)) ∧
      r'.store = r.store := by
  simp only [runProgram, h]
  refine ⟨_, rfl, ?_⟩
  split
  · rfl
  · rfl

theorem runProgram_of_outOfFuel (h : p.run {} fuel = .outOfFuel) (r : Report)
    (filter : Log.Filter) : runProgram r fuel filter p = none := by
  simp only [runProgram, h]

/-- A run that is reached ends with the value, with the fault, or not at all. -/
theorem answers_runProgram (hversion : ¬ request.version) (htokens : ¬ request.tokens)
    {front : List Stage} (hstages : request.stages = front ++ [.run])
    (hfront : front.findSome? (request.stageStatus fuel s) = none)
    (hprogram : request.program? s = some p) (hwrites : request.WritesImage s r.store)
    (hfailure : r.failure = none) (filter : Log.Filter) :
    request.Answers fuel s (runProgram r fuel filter p) := by
  cases hrun : p.run {} fuel with
  | outOfFuel =>
    rw [runProgram_of_outOfFuel hrun]
    refine .outOfFuel ⟨by simp [hstages], ?_, p, hprogram, hrun⟩
    rw [hstages, List.findSome?_append, hfront]
    simp [Request.stageStatus, hprogram, hrun]
  | stopped result stack =>
    have hstops : ¬ request.RunsOut fuel s := by
      rintro ⟨-, -, p', hprogram', hrun'⟩
      cases hprogram.symm.trans hprogram'
      cases hrun.symm.trans hrun'
    cases result with
    | ok v =>
      obtain ⟨r', hr', hstore, hfailure'⟩ := runProgram_of_value hrun r filter
      have hstatus : r'.status = 0 := Report.status_of_none (hfailure'.trans hfailure)
      rw [hr']
      refine .report (ends_of_written hversion htokens hstages hfront ?_ (.inl hstatus) ?_) hstops
      · simp [hstatus, Request.stageStatus, hprogram, hrun]
      · rwa [hstore]
    | error f =>
      obtain ⟨r', hr', hstore⟩ := runProgram_of_fault hrun r filter
      rw [hr']
      have hstatus : (r'.fail (.run f)).status = 7 := rfl
      refine .report (ends_of_written hversion htokens hstages hfront ?_ (.inr hstatus) ?_) hstops
      · simp [hstatus, Request.stageStatus, hprogram, hrun]
      · show request.WritesImage s r'.store
        rwa [hstore]

/-! ## Requests -/

theorem answers_of_version (hversion : request.version) (fuel : Nat) (filter : Log.Filter)
    (s : FileStore) : request.Answers fuel s (perform request fuel filter s) := by
  have hstages : request.stages = [] := if_pos hversion
  rw [perform, if_pos hversion]
  refine .report ⟨?_, fun _ => rfl, fun h => absurd hversion h⟩ ?_
  · rw [Request.status, hstages]
    rfl
  · rintro ⟨hrun, -⟩
    rw [hstages] at hrun
    cases hrun

theorem answers_of_tokens (hversion : ¬ request.version) (htokens : request.tokens) (fuel : Nat)
    (filter : Log.Filter) (s : FileStore) :
    request.Answers fuel s (perform request fuel filter s) := by
  have hstages : request.stages = Request.opening := by
    rw [Request.stages, if_neg hversion, if_pos htokens]
  have hstops : ¬ request.RunsOut fuel s := by
    rintro ⟨hrun, -⟩
    rw [hstages] at hrun
    exact absurd hrun (by decide)
  have hstatus := Request.task_status request fuel s
  cases htask : request.task s with
  | error failure =>
    rw [htask] at hstatus
    rw [perform_of_task_error hversion htask]
    have hwhole := hstages.trans (List.append_nil _).symm
    exact .report (ends_of_failure hwhole (by decide) hstatus rfl) hstops
  | ok task =>
    rw [htask] at hstatus
    rw [perform_of_tokens hversion htokens htask]
    refine .report ⟨?_, fun _ => rfl, fun _ h => absurd htokens h⟩ hstops
    rw [Request.status, hstages, hstatus]
    rfl

theorem perform_answers (request : Request) (fuel : Nat) (filter : Log.Filter) (s : FileStore) :
    request.Answers fuel s (perform request fuel filter s) := by
  by_cases hversion : request.version
  · exact answers_of_version hversion fuel filter s
  by_cases htokens : request.tokens
  · exact answers_of_tokens hversion htokens fuel filter s
  have hstages : request.stages = Request.opening ++ [.read, .layout] ++ [.save] ++
      if request.run then [.run] else [] := by
    rw [Request.stages, if_neg hversion, if_neg htokens]
  have hreaches := perform_reaches hversion htokens fuel filter s
  generalize hfront : List.findSome? (request.stageStatus fuel s)
    (Request.opening ++ [.read, .layout] ++ [.save]) = front at hreaches
  generalize perform request fuel filter s = result at hreaches ⊢
  cases hreaches with
  | failed hstore =>
    refine .report (ends_of_failure hstages (by decide) hfront hstore) ?_
    rintro ⟨-, hnone, -⟩
    rw [hstages, List.findSome?_append, hfront] at hnone
    cases hnone
  | @written p r hprogram hwrites hfailure =>
    by_cases hrun : request.run
    · rw [if_pos hrun] at hstages ⊢
      exact answers_runProgram hversion htokens hstages hfront hprogram hwrites hfailure filter
    · rw [if_neg hrun] at hstages ⊢
      have hstatus : r.status = 0 := Report.status_of_none hfailure
      refine .report
        (ends_of_written hversion htokens hstages hfront hstatus (.inl hstatus) hwrites) ?_
      rintro ⟨hmem, -⟩
      rw [hstages] at hmem
      exact absurd hmem (by decide)

/-- The exit status of a request is that of the first of its stages that fails.  No file changes
unless all stages up to the saving succeed; then one file is written, with the image of the program,
also when the run fails.  Only a run that uses up the fuel gives no answer. -/
theorem status_and_files_of_perform (request : Request) (fuel : Nat) (filter : Log.Filter)
    (s : FileStore) :
    (perform request fuel filter s = none ↔ request.RunsOut fuel s) ∧
    ∀ report, perform request fuel filter s = some report →
      report.status = request.status fuel s ∧
      (request.version ∨ request.tokens ∨ report.status ∈ [1, 2, 3, 4, 5, 6, 8] →
        report.store = s) ∧
      (¬ request.version → ¬ request.tokens → report.status = 0 ∨ report.status = 7 →
        request.WritesImage s report.store) := by
  have hanswers := perform_answers request fuel filter s
  generalize perform request fuel filter s = result at hanswers
  cases hanswers with
  | report hends hstops =>
    refine ⟨⟨?_, fun h => absurd h hstops⟩, ?_⟩
    · intro h
      cases h
    · intro report h
      cases h
      exact ⟨hends.status, hends.untouched, hends.written⟩
  | outOfFuel hruns =>
    refine ⟨⟨fun _ => hruns, fun _ => rfl⟩, ?_⟩
    intro report h
    cases h

/-- A program that divides by zero: it is run behind its file, which stays, and it is not run when
there is no directory for the file. -/
theorem status_and_files_of_perform_division :
    let source := "_start: PUSH 1 PUSH 0 DIV RET END _start"
    let s := (FileStore.empty ["home"]).place "div.ka" (.file source.toUTF8.data.toList)
    let request : Request :=
      ⟨some (some "div.ka"), none, none, true, false, false, false, false, 0⟩
    let misplaced := { request with output := some "lib/div.kbc" }
    (∃ report, perform request 10 (.ofVerbosity 0) s = some report ∧ report.status = 7 ∧
      request.status 10 s = 7 ∧ request.WritesImage s report.store) ∧
    ∃ report, perform misplaced 10 (.ofVerbosity 0) s = some report ∧ report.status = 8 ∧
      misplaced.status 10 s = 8 ∧ report.store = s := by
  intro source s request misplaced
  have hfault : (perform request 10 (.ofVerbosity 0) s).map Report.status = some 7 := by
    decide +kernel
  have hmisplaced : (perform misplaced 10 (.ofVerbosity 0) s).map Report.status = some 8 := by
    decide +kernel
  obtain ⟨report, hreport, hseven⟩ := Option.map_eq_some_iff.1 hfault
  obtain ⟨report', hreport', height⟩ := Option.map_eq_some_iff.1 hmisplaced
  obtain ⟨hstatus, -, hwritten⟩ :=
    (status_and_files_of_perform request 10 (.ofVerbosity 0) s).2 report hreport
  obtain ⟨hstatus', huntouched, -⟩ :=
    (status_and_files_of_perform misplaced 10 (.ofVerbosity 0) s).2 report' hreport'
  refine ⟨⟨report, hreport, hseven, hstatus.symm.trans hseven, ?_⟩,
    report', hreport', height, hstatus'.symm.trans height, ?_⟩
  · exact hwritten (by decide) (by decide) (.inr hseven)
  · exact huntouched (.inr (.inr (by simp [height])))

end BlockMachine.Assembler
