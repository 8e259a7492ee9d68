import BlockMachine.Command.Assembler
import BlockMachine.Command.Runner
import BlockMachine.Proofs.FileWrites
import BlockMachine.Proofs.ImageRoundTrip
import BlockMachine.Proofs.StaticSafety

/-! # Running saved programs

A program may be run as soon as it is assembled, or be saved to a file and run from there.  The file
loses nothing: all that an assembled program holds can be stored, and the path it was saved under
leads to its image.

* `FileStore.load_of_save` — loading gives back what was saved;
* `Assembled.storable` — an assembled program can be saved, unless it is too large for the numbers
  in an image;
* `SameAnswer` — how a run in the assembler command compares with one in the runner command;
* `saved_program_runs_alike` — both ways of running are the same.
-/

namespace BlockMachine

/-! ## Images -/

namespace Image

theorem decode_of_encode {p : Program} {image : Bytes} (h : encode p = .ok image) :
    decode image = .ok (p, []) :=
  (readProgram_inverts p image []).2 ⟨image, encode_eq_ok.1 h, (List.append_nil image).symm⟩

theorem refuse_mem_of_deliver {ws : List Write} {written : Bytes} {error : ImageError}
    (h : deliver none ws = (written, .error error)) : .refuse error ∈ ws := by
  induction ws generalizing written with
  | nil => cases h
  | cons w ws ih =>
    cases w with
    | field name bytes =>
      have hrest : deliver none ws = ((deliver none ws).1, .error error) :=
        Prod.ext rfl (Prod.ext_iff.1 h).2
      exact List.mem_cons_of_mem _ (ih hrest)
    | refuse other =>
      cases h
      exact List.mem_cons_self

theorem encode_eq_error {p : Program} {error : ImageError} (h : encode p = .error error) :
    .refuse error ∈ writes p := by
  simp only [encode] at h
  split at h
  · cases h
  · next written other hdeliver =>
    cases h
    exact refuse_mem_of_deliver hdeliver

theorem writeNumber_ne_labelConstant (field : Field) (n : Nat) (name : String) :
    .refuse (.labelConstant name) ≠ writeNumber field n := by
  intro h
  rw [writeNumber] at h
  split at h
  · cases h
  · cases h

/-- Only a label among the constants is refused as one. -/
theorem label_mem_of_encode {p : Program} {name : String}
    (h : encode p = .error (.labelConstant name)) : .label name ∈ p.constants := by
  have hrefused := encode_eq_error h
  simp only [writes, List.mem_append, List.mem_cons, List.not_mem_nil, List.mem_flatMap,
    List.mem_map, writeRange, writeNumber_ne_labelConstant, reduceCtorEq, false_or, or_false,
    and_false, exists_false, Array.mem_toList_iff, eq_comm (b := Write.refuse _)] at hrefused
  obtain ⟨v, hv, hrefused⟩ := hrefused
  cases v with
  | integer n => simp [writeConstant] at hrefused
  | label other =>
    obtain rfl : name = other := by simpa [writeConstant] using hrefused
    exact hv

end Image

theorem FileStore.load_of_read {s : FileStore} {p : Program} {path : String} {image : Bytes}
    (hread : s.read path = .ok image) (hencode : Image.encode p = .ok image) :
    s.load path = .ok p := by
  rw [load, hread]
  show Image.decode image >>= _ = _
  rw [Image.decode_of_encode hencode]
  rfl

theorem FileStore.load_of_save {s s' : FileStore} {p : Program} {path : String}
    (h : s.save p path = .ok s') : s'.load path = .ok p := by
  obtain ⟨image, hencode, hwrite⟩ := save_inv h
  exact load_of_read (read_of_write hwrite) hencode

/-! ## Assembled programs -/

namespace Assembled

variable {blocks : List FlatBlock} {entry : Nat} {layout : Layout} {pool : List Int32}
  {p : Program}

/-- Every word was written for some instruction. -/
theorem word_emitted (h : Assembled blocks entry layout pool p) {w : Nat} (hw : w ∈ p.code) :
    ∃ i b ins words, blocks[i]? = some b ∧ Emits layout pool i ins words ∧ w ∈ words := by
  obtain ⟨words, hwords, hcode⟩ := h.code
  rw [← Array.mem_toList_iff, hcode, List.mem_flatten] at hw
  obtain ⟨_, hblock, hw⟩ := hw
  obtain ⟨own, hown, rfl⟩ := List.mem_map.1 hblock
  obtain ⟨ws, hws, hw⟩ := List.mem_flatten.1 hw
  obtain ⟨⟨b, i⟩, hmem, hemits⟩ := exists_mem_of_forall₂ hwords hown
  obtain ⟨ins, -, hins⟩ := exists_mem_of_forall₂ hemits hws
  exact ⟨i, b, ins, ws, List.mem_zipIdx_iff_getElem?.1 hmem, hins, hw⟩

/-- Words are opcodes or refer to a constant, an offset or a block of the program. -/
theorem word_bound (h : Assembled blocks entry layout pool p) {w : Nat} (hw : w ∈ p.code) :
    (∃ op : Opcode, w = op.word) ∨ w < p.constants.size ∨ w ≤ p.code.size ∨
      w < p.blocks.size := by
  obtain ⟨i, b, ins, words, hb, hemits, hw⟩ := h.word_emitted hw
  cases hemits with
  | mark => cases hw
  | @plain op position hop =>
    obtain rfl := List.mem_singleton.1 hw
    exact .inl ⟨op, rfl⟩
  | @literal op n position place hop hplace =>
    obtain rfl | hw := List.mem_cons.1 hw
    · exact .inl ⟨op, rfl⟩
    · obtain rfl := List.mem_singleton.1 hw
      have hlt := (List.getElem?_eq_some_iff.1 hplace).1
      rw [← List.length_map (f := Value.integer), ← h.constants, Array.length_toList] at hlt
      exact .inr (.inl hlt)
  | @jump condition name position target htarget =>
    obtain rfl | hw := List.mem_cons.1 hw
    · exact .inl ⟨.jump condition, rfl⟩
    · obtain rfl := List.mem_singleton.1 hw
      rw [h.places.marks i b name hb] at htarget
      obtain ⟨k, -, rfl⟩ := Option.map_eq_some_iff.1 htarget
      -- A mark lies in its block, and the block in the code.
      have hblock := (h.blockRange_ordered (List.getElem?_eq_some_iff.1 hb).1).2
      have hmark := wordCount_take_le b.instructions k
      simp only [blockRange, blockStart_succ hb] at hblock
      exact .inr (.inr (.inl (by omega)))
  | @call name position slot hslot =>
    obtain rfl | hw := List.mem_cons.1 hw
    · exact .inl ⟨.call, rfl⟩
    · obtain rfl := List.mem_singleton.1 hw
      rw [h.places.labels] at hslot
      obtain ⟨block, hblock, rfl⟩ := Option.map_eq_some_iff.1 hslot
      have hentry := h.block_at (List.findIdx?_eq_some_iff_getElem.1 hblock).1
      exact .inr (.inr (.inr (Array.getElem?_eq_some_iff.1 hentry).1))

theorem integer_constants (h : Assembled blocks entry layout pool p) {v : Value}
    (hv : v ∈ p.constants) : ∃ n, v = .integer n := by
  rw [← Array.mem_toList_iff, h.constants] at hv
  obtain ⟨n, -, rfl⟩ := List.mem_map.1 hv
  exact ⟨n, rfl⟩

/-- An assembled program can be stored if the numbers of its parts can. -/
theorem storable (h : Assembled blocks entry layout pool p) (hcode : p.code.size < UInt64.size)
    (hconstants : p.constants.size < UInt64.size) (hblocks : p.blocks.size < UInt64.size) :
    p.Storable where
  blockCount := hblocks
  bounds := by
    intro r hr
    rw [h.table, List.mem_toArray] at hr
    obtain ⟨i, hi, rfl⟩ := h.places.table_mem r hr
    have hordered := h.blockRange_ordered hi
    exact ⟨by omega, by omega⟩
  constantCount := hconstants
  constants := fun _ => h.integer_constants
  codeSize := hcode
  words := by
    intro w hw
    obtain ⟨op, rfl⟩ | hw | hw | hw := h.word_bound hw
    · have hop : op.word < Opcode.all.length := (List.getElem?_eq_some_iff.1 op.ofWord?_word).1
      exact Nat.lt_trans hop (by decide)
    · omega
    · omega
    · omega

end Assembled

/-! ## Commands -/

/-- What executing reports of a run. -/
def Outcome.reported : Outcome → ExecutionResult
  | .stopped (.ok v) _ => some (.ok v)
  | .stopped (.error f) _ => some (.error (.fault f))
  | .outOfFuel => none

theorem Settings.execute_eq (settings : Settings) (fuel : Nat) (p : Program) :
    settings.execute fuel p = (p.run settings.limits fuel).reported := by
  rw [execute]
  split
  · next h => rw [h]; rfl
  · next h => rw [h]; rfl
  · next h => rw [h]; rfl

theorem Settings.executeFile_eq {s : FileStore} {path : String} {p : Program}
    (hload : s.load path = .ok p) (settings : Settings) (fuel : Nat) :
    settings.executeFile fuel s path = (p.run settings.limits fuel).reported := by
  rw [executeFile, hload]
  exact settings.execute_eq fuel p

/-- The request is to assemble this text with this entry block, to write the program there, and to
run it. -/
structure Assembler.Request.AsksToRun (request : Request) (s : FileStore)
    (source entry output : String) : Prop where
  source : ∃ path, request.source = .ok (path, entry) ∧ sourceText s path = .ok source ∧
    request.outputPath path = output
  run : request.run = true
  tokens : request.tokens = false
  version : request.version = false

/-- What is printed of a program before it is run. -/
def Assembler.Request.shown (request : Request) (p : Program) : String :=
  (if request.json then p.json ++ "\n" else "") ++ if request.disasm then p.listing else ""

/-- How a run ends in the two commands: with the same value printed, with the same fault, or not at
all.  Behind the assembler's run stands the store with the written file. -/
inductive SameAnswer (shown : String) (store : FileStore) :
    Outcome → Option Assembler.Report → Option Runner.Report → Prop
  | value {v : Option Value} {stack : Stack} {log log' : List Log.Entry} :
      SameAnswer shown store (.stopped (.ok v) stack)
        (some ⟨none, shown ++ (Value.resultText v ++ "\n"), log, store⟩)
        (some ⟨0, Value.resultText v ++ "\n", log'⟩)
  | fault {f : Fault} {stack : Stack} {log log' : List Log.Entry} :
      SameAnswer shown store (.stopped (.error f) stack)
        (some ⟨some (.run f), shown, log, store⟩)
        (some (.failed log' s!"Execution failed: VM error: {f.message}"))
  | outOfFuel : SameAnswer shown store .outOfFuel none none

namespace Assembler

theorem finish_stdout (request : Request) (p : Program) (log : List Log.Entry) (s : FileStore) :
    ((Report.mk none "" log s).printIf request.json fun _ => p.json ++ "\n").printIf request.disasm
      (fun _ => p.listing) = ⟨none, request.shown p, log, s⟩ := by
  cases hjson : request.json <;> cases hdisasm : request.disasm <;>
    simp [Report.printIf, Report.print, Request.shown, hjson, hdisasm]

/-- A program that is assembled and saved is run next. -/
theorem perform_eq_runProgram {request : Request} {s s' : FileStore}
    {source entry output : String} {p : Program} (hassembles : assemble source entry = .ok p)
    (hasks : request.AsksToRun s source entry output) (hsave : s.save p output = .ok s')
    (fuel : Nat) (filter : Log.Filter) :
    ∃ log, perform request fuel filter s =
      runProgram ⟨none, request.shown p, log, s'⟩ fuel filter p := by
  obtain ⟨path, hsource, htext, rfl⟩ := hasks.source
  rw [assemble] at hassembles
  obtain ⟨tokens, htokens, hprogram⟩ := bind_eq_ok hassembles
  have htask : request.task s = .ok ⟨path, entry, tokens⟩ := by
    simp only [Request.task, hsource, htext, htokens, bind, Except.bind, Except.mapError]
    rfl
  simp only [perform, hasks.version, htask, hasks.tokens, hprogram, finish, Bool.false_eq_true,
    if_false, Report.note]
  rw [finish_stdout]
  simp only [hsave, hasks.run, if_true]
  exact ⟨_, rfl⟩

end Assembler

/-- The assembler runs the program that it holds, the runner the one in the file. -/
theorem sameAnswer_of_load {s : FileStore} {path : String} {p : Program}
    (hload : s.load path = .ok p) (shown : String) (log : List Log.Entry) (fuel : Nat)
    (filter filter' : Log.Filter) (trace : Bool) (verbosity : Nat) :
    SameAnswer shown s (p.run {} fuel)
      (Assembler.runProgram ⟨none, shown, log, s⟩ fuel filter p)
      (Runner.perform ⟨path, trace, {}, false, verbosity⟩ fuel filter' s) := by
  -- What the assembler notes in its log before the run makes no difference.
  obtain ⟨log', hnote⟩ : ∃ log',
      (if filter.shows .debug then
        (Assembler.Report.mk none shown log s).note
          (Journal.ofRun (Machine.new p {}) false fuel)
      else ⟨none, shown, log, s⟩) = ⟨none, shown, log', s⟩ := by
    split
    · exact ⟨_, rfl⟩
    · exact ⟨_, rfl⟩
  have hsettings : (Runner.Request.mk path trace {} false verbosity).settings.check = .ok () := rfl
  have hlimits : (Runner.Request.mk path trace {} false verbosity).settings.limits = {} := rfl
  simp only [Assembler.runProgram, Runner.perform, Runner.run, hnote, hsettings,
    Settings.executeFile_eq hload, hlimits, Bool.false_eq_true, if_false]
  cases p.run {} fuel with
  | outOfFuel => exact .outOfFuel
  | stopped result stack =>
    cases result with
    | ok v => exact .value
    | error f => exact .fault

/-- Assembled programs have no constant that cannot be stored, and can be stored unless they are too
large.  A program that was saved is loaded as it was, and executing the file ends as a run of the
program does, in the same value or the same fault, if it ends.  So the assembler command that runs a
program prints what the runner command prints for the file. -/
theorem saved_program_runs_alike (source entry : String) (p : Program)
    (hassembles : assemble source entry = .ok p) :
    (∀ name, Image.encode p ≠ .error (.labelConstant name)) ∧
    (p.code.size < UInt64.size → p.constants.size < UInt64.size → p.blocks.size < UInt64.size →
      ∃ image, Image.encode p = .ok image) ∧
    ∀ s path s', s.save p path = .ok s' →
      s'.load path = .ok p ∧
      (∀ (settings : Settings) fuel,
        settings.executeFile fuel s' path = (p.run settings.limits fuel).reported) ∧
      ∀ (request : Assembler.Request), request.AsksToRun s source entry path →
        ∀ fuel filter filter' trace verbosity,
          SameAnswer (request.shown p) s' (p.run {} fuel)
            (Assembler.perform request fuel filter s)
            (Runner.perform ⟨path, trace, {}, false, verbosity⟩ fuel filter' s') := by
  obtain ⟨blocks, hblocks⟩ := assembleBlocks_of_assemble hassembles
  obtain ⟨block, layout, pool, -, h⟩ := assembled_of_assembleBlocks hblocks
  refine ⟨?_, ?_, ?_⟩
  · intro name hencode
    obtain ⟨n, hn⟩ := h.integer_constants (Image.label_mem_of_encode hencode)
    cases hn
  · intro hcode hconstants htable
    exact Image.storable_iff.1 (h.storable hcode hconstants htable)
  · intro s path s' hsave
    have hload := FileStore.load_of_save hsave
    refine ⟨hload, Settings.executeFile_eq hload, ?_⟩
    intro request hasks fuel filter filter' trace verbosity
    obtain ⟨log, hperform⟩ := Assembler.perform_eq_runProgram hassembles hasks hsave fuel filter
    rw [hperform]
    exact sameAnswer_of_load hload _ log fuel filter filter' trace verbosity

/-- A program that is saved outside of the working directory. -/
theorem saved_program_runs_alike_other_directory :
    let source := "_start: PUSH 3 CALL down RET END _start down: DEC END down"
    let p : Program := ⟨#[2, 0, 1, 1, 0, 10], #[.integer 3], #[⟨0, 5⟩, ⟨5, 6⟩]⟩
    let s := ((FileStore.empty ["home"]).makeDirectory ["out"]).place "down.kasm"
      (.file source.toUTF8.data.toList)
    let request : Assembler.Request :=
      ⟨some (some "down.kasm"), none, some "../out/down.kbc", true, false, false, false, false, 0⟩
    assemble source "_start" = .ok p ∧ request.AsksToRun s source "_start" "../out/down.kbc" ∧
      ∃ s', s.save p "../out/down.kbc" = .ok s' ∧ s'.load "../out/down.kbc" = .ok p ∧
        SameAnswer "" s' (.stopped (.ok (some (.integer 2))) (.empty 1024))
          (Assembler.perform request 10 (.ofVerbosity 0) s)
          (Runner.perform ⟨"../out/down.kbc", false, {}, false, 0⟩ 10 (.ofVerbosity 0) s') := by
  intro source p s request
  have hassembles : assemble source "_start" = .ok p := by decide +kernel
  have htext : Assembler.Request.sourceText s "down.kasm" = .ok source := by decide +kernel
  have hasks : request.AsksToRun s source "_start" "../out/down.kbc" :=
    ⟨⟨"down.kasm", rfl, htext, rfl⟩, rfl, rfl, rfl⟩
  obtain ⟨s', hsave⟩ : ∃ s', s.save p "../out/down.kbc" = .ok s' :=
    fault?_eq_none.1 (by decide +kernel)
  have hrun : p.run {} 10 = .stopped (.ok (some (.integer 2))) (.empty 1024) := rfl
  have hsaved := (saved_program_runs_alike source "_start" p hassembles).2.2 s _ s' hsave
  have hanswer := hsaved.2.2 request hasks 10 (.ofVerbosity 0) (.ofVerbosity 0) false 0
  rw [hrun] at hanswer
  exact ⟨hassembles, hasks, s', hsave, hsaved.1, hanswer⟩

end BlockMachine
