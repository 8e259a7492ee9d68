import BlockMachine.Assembly
import BlockMachine.Proofs.Positions
import BlockMachine.Proofs.Results

/-! # Positions have no say in what is assembled

Every token carries its position, and blocks, instructions and errors carry positions on.  Taking all
positions away commutes with each stage of assembling: a stage that is given its input without
positions gives what it would have given, without positions.  So tokens of the same kinds are
assembled to the same program, or refused with errors that tell them apart by positions only.

* `Token.unplaced`, `Reading.unplaced` — tokens and readings without positions;
* `ReadError.unplaced`, `LayoutError.unplaced`, `AssemblyError.unplaced` — errors likewise;
* `Reading.feed_unplaced`, `readTokens_unplaced` — reading, token by token and as a whole;
* `Layout.ofBlocks_unplaced`, `emit_unplaced` — laying out and emitting;
* `SameAssembly` — results that differ in the positions of errors at most.
-/

namespace BlockMachine

open CodeBlock

/-! ## Without positions -/

def Token.unplaced (t : Token) : Token :=
  { t with position := default }

def ReadError.unplaced : ReadError → ReadError
  | unexpected expected found _ => unexpected expected found default
  | mismatchedEnd expected found _ => mismatchedEnd expected found default
  | invalidNumber text _ => invalidNumber text default
  | neverClosed label => neverClosed label

def LayoutError.unplaced : LayoutError → LayoutError
  | noEntry entry => noEntry entry
  | undefinedMark block name _ => undefinedMark block name 0
  | undefinedBlock name _ => undefinedBlock name 0
  | invalidInstruction block text _ => invalidInstruction block text 0

/-- Rejected characters are left as they are: they have no part in assembling tokens. -/
def AssemblyError.unplaced : AssemblyError → AssemblyError
  | scan rejections => scan rejections
  | read error => read error.unplaced
  | layout error => layout error.unplaced

def OpenBlock.unplaced (b : OpenBlock) : OpenBlock :=
  ⟨b.label, 0, b.instructions.map Instruction.unplaced, unplacedAll b.blocks⟩

def Around.unplaced (around : Around) : Around :=
  ⟨unplacedAll around.finished, around.enclosing.map OpenBlock.unplaced⟩

def Reading.unplaced : Reading → Reading
  | between finished => between (unplacedAll finished)
  | labelled label _ around => labelled label 0 around.unplaced
  | inside block around => inside block.unplaced around.unplaced
  | operand mnemonic _ block around => operand mnemonic default block.unplaced around.unplaced
  | closing block around => closing block.unplaced around.unplaced

/-- Tokens of the same kinds are the same without their positions. -/
theorem map_unplaced_of_kinds {ts ts' : List Token}
    (h : ts.map Token.kind = ts'.map Token.kind) :
    ts.map Token.unplaced = ts'.map Token.unplaced := by
  have hkind : Token.unplaced = (fun kind => ⟨kind, default⟩) ∘ Token.kind := rfl
  rw [hkind, ← List.map_map, h, List.map_map]

theorem CodeBlock.unplacedAll_eq_map (bs : List CodeBlock) : unplacedAll bs = bs.map unplaced := by
  induction bs with
  | nil => rfl
  | cons b bs ih => rw [unplacedAll, ih, List.map_cons]

theorem OpenBlock.close_unplaced (b : OpenBlock) : b.unplaced.close = b.close.unplaced := by
  simp only [close, OpenBlock.unplaced, CodeBlock.unplaced, unplacedAll_eq_map, List.map_reverse]

/-! ## Reading -/

namespace Reading

theorem close_unplaced (b : OpenBlock) (around : Around) :
    close b.unplaced around.unplaced = (close b around).unplaced := by
  obtain ⟨finished, enclosing⟩ := around
  cases enclosing with
  | nil =>
    show between (b.unplaced.close :: unplacedAll finished) = _
    rw [b.close_unplaced]
    rfl
  | cons outer enclosing =>
    show inside (outer.unplaced.addBlock b.unplaced.close) _ = _
    rw [b.close_unplaced]
    rfl

theorem operandOf_unplaced (m : Mnemonic) (label : String) (t : Token) :
    operandOf m label t.unplaced = (operandOf m label t).mapError ReadError.unplaced := by
  obtain ⟨kind, p⟩ := t
  simp only [operandOf, Token.unplaced]
  cases m.operand with
  | nothing => cases kind <;> rfl
  | name => cases kind <;> rfl
  | number =>
    cases kind with
    | number text =>
      simp only
      cases Numeral.signed? text.toList >>= fit? <;> rfl
    | _ => rfl

/-- A reading goes on in the same way without positions. -/
theorem feed_unplaced (t : Token) (r : Reading) :
    r.unplaced.feed t.unplaced =
      ((r.feed t).mapError ReadError.unplaced).map Reading.unplaced := by
  -- Once the kind of the token is known, both sides compute, unless the step looks further: at the
  -- operand that an opcode takes, at the operand itself, or at the label of the block.
  cases r with
  | between finished =>
    obtain ⟨kind, p⟩ := t
    cases kind <;> rfl
  | labelled label line around =>
    obtain ⟨kind, p⟩ := t
    cases kind <;> rfl
  | inside block around =>
    obtain ⟨kind, p⟩ := t
    cases kind with
    | keyword m =>
      cases m with
      | endBlock => rfl
      | mark => rfl
      | op opcode =>
        simp only [Reading.unplaced, feed, Token.unplaced]
        split <;> rfl
    | _ => rfl
  | operand m p block around =>
    simp only [Reading.unplaced, feed]
    rw [show block.unplaced.label = block.label from rfl, operandOf_unplaced]
    cases operandOf m block.label t <;> rfl
  | closing block around =>
    obtain ⟨kind, p⟩ := t
    cases kind with
    | identifier name =>
      simp only [Reading.unplaced, feed, Token.unplaced]
      rw [show block.unplaced.label = block.label from rfl, close_unplaced]
      split <;> rfl
    | _ => rfl

theorem finish_unplaced (r : Reading) :
    r.unplaced.finish = (r.finish.mapError ReadError.unplaced).map unplacedAll := by
  cases r with
  | between finished =>
    show Except.ok (unplacedAll finished).reverse = .ok (unplacedAll finished.reverse)
    simp only [unplacedAll_eq_map, List.map_reverse]
  | _ => rfl

theorem run_unplaced (r : Reading) (ts : List Token) :
    (r.unplaced.run (ts.map Token.unplaced)).1 =
      ((r.run ts).1.mapError ReadError.unplaced).map unplacedAll := by
  -- Along the tokens, for every reading: a step changes the reading that the others start from.
  induction ts generalizing r with
  | nil => exact r.finish_unplaced
  | cons t ts ih =>
    rw [List.map_cons, run, run, feed_unplaced]
    cases r.feed t with
    | error e => rfl
    | ok r' => exact ih r'

end Reading

theorem readTokens_unplaced (ts : List Token) :
    readTokens (ts.map Token.unplaced) =
      ((readTokens ts).mapError ReadError.unplaced).map unplacedAll := by
  have hfront : (ts.map Token.unplaced).takeWhile (·.kind != .eof) =
      (ts.takeWhile (·.kind != .eof)).map Token.unplaced := List.takeWhile_map ..
  simp only [readTokens, Reader.ofTokens, Reader.readTree, hfront]
  exact Reading.start.run_unplaced _

/-! ## Laying out and emitting -/

theorem FlatBlock.form_unplaced (b : FlatBlock) (i : Instruction) :
    b.unplaced.form i.unplaced = (b.form i).mapError LayoutError.unplaced := by
  rw [form, form, show i.unplaced.form? = i.form? from rfl]
  cases i.form? <;> rfl

theorem FlatBlock.forms_unplaced (b : FlatBlock) :
    b.unplaced.forms = b.forms.mapError LayoutError.unplaced :=
  mapM_map_mapError b.form_unplaced b.instructions

theorem Layout.collectLabels_unplaced (blocks : List FlatBlock) (slots : List Nat) :
    collectLabels (blocks.map FlatBlock.unplaced) slots = collectLabels blocks slots := by
  rw [collectLabels, List.map_map]
  rfl

theorem Layout.ofBlocks_unplaced (blocks : List FlatBlock) (entry : String) :
    ofBlocks (blocks.map FlatBlock.unplaced) entry =
      (ofBlocks blocks entry).mapError LayoutError.unplaced := by
  have hforms : (blocks.map FlatBlock.unplaced).mapM FlatBlock.forms =
      (blocks.mapM FlatBlock.forms).mapError LayoutError.unplaced :=
    mapM_map_mapError FlatBlock.forms_unplaced blocks
  have hentry : (blocks.map FlatBlock.unplaced).findIdx? (fun b => b.label == entry) =
      blocks.findIdx? fun b => b.label == entry := List.findIdx?_map ..
  rw [ofBlocks, ofBlocks, hforms, hentry]
  -- What is left to lay out are labels.
  simp only [collectLabels_unplaced]
  cases blocks.mapM FlatBlock.forms with
  | error e => rfl
  | ok forms => cases blocks.findIdx? fun b => b.label == entry <;> rfl

theorem Emission.add_unplaced (layout : Layout) (b : FlatBlock) (index : Nat) (e : Emission)
    (i : Instruction) :
    add layout b.unplaced index e i.unplaced =
      (add layout b index e i).mapError LayoutError.unplaced := by
  rw [add, add, b.form_unplaced]
  cases b.form i with
  | error e => rfl
  | ok form =>
    -- Only names can be refused here, and those that are found do not depend on the line.
    cases form with
    | jump condition name =>
      simp only [Except.mapError, bind, Except.bind]
      cases layout.mark? index name <;> rfl
    | call name =>
      simp only [Except.mapError, bind, Except.bind]
      cases layout.slot? name <;> rfl
    | _ => rfl

theorem emit_unplaced (blocks : List FlatBlock) (layout : Layout) :
    emit (blocks.map FlatBlock.unplaced) layout =
      (emit blocks layout).mapError LayoutError.unplaced := by
  have hblock (e : Emission) (block : FlatBlock × Nat) :
      Emission.addBlock layout e (Prod.map FlatBlock.unplaced id block) =
        (Emission.addBlock layout e block).mapError LayoutError.unplaced :=
    foldlM_map_mapError (fun e i => Emission.add_unplaced layout block.1 block.2 e i) _ e
  rw [emit, emit, List.zipIdx_map, foldlM_map_mapError hblock]
  cases blocks.zipIdx.foldlM (Emission.addBlock layout) .start <;> rfl

theorem assembleBlocks_unplaced (blocks : List FlatBlock) (entry : String) :
    assembleBlocks (blocks.map FlatBlock.unplaced) entry =
      (assembleBlocks blocks entry).mapError LayoutError.unplaced := by
  rw [assembleBlocks, assembleBlocks, Layout.ofBlocks_unplaced]
  cases Layout.ofBlocks blocks entry with
  | error e => rfl
  | ok layout => exact emit_unplaced blocks layout

/-! ## Assembling -/

theorem assembleTokens_unplaced (ts : List Token) (entry : String) :
    assembleTokens (ts.map Token.unplaced) entry =
      (assembleTokens ts entry).mapError AssemblyError.unplaced := by
  rw [assembleTokens, assembleTokens, readTokens_unplaced]
  cases readTokens ts with
  | error e => rfl
  | ok tree =>
    show (assembleBlocks (flattenAll (unplacedAll tree)) entry).mapError AssemblyError.layout =
      ((assembleBlocks (flattenAll tree) entry).mapError AssemblyError.layout).mapError _
    rw [flattenAll_unplacedAll, assembleBlocks_unplaced]
    cases assembleBlocks (flattenAll tree) entry <;> rfl

/-- The same program, or errors that differ in their positions at most. -/
inductive SameAssembly : Except AssemblyError Program → Except AssemblyError Program → Prop
  | program {p : Program} : SameAssembly (.ok p) (.ok p)
  | error {e e' : AssemblyError} (h : e.unplaced = e'.unplaced) :
      SameAssembly (.error e) (.error e')

theorem sameAssembly_of_unplaced {x y : Except AssemblyError Program}
    (h : x.mapError AssemblyError.unplaced = y.mapError AssemblyError.unplaced) :
    SameAssembly x y := by
  cases x with
  | ok p =>
    cases y with
    | ok p' =>
      cases h
      exact .program
    | error e' => cases h
  | error e =>
    cases y with
    | ok p' => cases h
    | error e' => exact .error (Except.error.inj h)

theorem assembleTokens_of_kinds {ts ts' : List Token} (entry : String)
    (h : ts.map Token.kind = ts'.map Token.kind) :
    SameAssembly (assembleTokens ts entry) (assembleTokens ts' entry) := by
  apply sameAssembly_of_unplaced
  rw [← assembleTokens_unplaced, ← assembleTokens_unplaced, map_unplaced_of_kinds h]

/-- Tokens of the same kinds are assembled to the same program, or refused with the same error but
for its position.  So are source texts in which nothing is rejected and that have tokens of the same
kinds. -/
theorem assembly_independent_of_positions (entry : String) :
    (∀ ts ts' : List Token, ts.map Token.kind = ts'.map Token.kind →
      SameAssembly (assembleTokens ts entry) (assembleTokens ts' entry)) ∧
    ∀ source source' ts ts', tokenize source = .ok ts → tokenize source' = .ok ts' →
      ts.map Token.kind = ts'.map Token.kind →
      SameAssembly (assemble source entry) (assemble source' entry) := by
  refine ⟨fun ts ts' => assembleTokens_of_kinds entry, ?_⟩
  intro source source' ts ts' hts hts' hkinds
  rw [assemble, assemble, hts, hts']
  exact assembleTokens_of_kinds entry hkinds

/-- Blanks, comments, letter case of keywords and underscores in numbers differ, and the name that
stands for nothing is found on another line. -/
theorem assembly_independent_of_positions_respelled :
    let source := "_start: PUSH 10 CALL f RET END _start"
    let source' := "; ten\n_start:\n\tpush 1_0 ; once\n\tCall f\n\tret\nend _start\n"
    ∃ ts ts', tokenize source = .ok ts ∧ tokenize source' = .ok ts' ∧
      ts.map Token.kind = ts'.map Token.kind ∧
      assemble source "_start" = .error (.layout (.undefinedBlock "f" 1)) ∧
      assemble source' "_start" = .error (.layout (.undefinedBlock "f" 4)) ∧
      SameAssembly (assemble source "_start") (assemble source' "_start") := by
  intro source source'
  obtain ⟨ts, hts⟩ : ∃ ts, tokenize source = .ok ts := fault?_eq_none.1 (by decide +kernel)
  obtain ⟨ts', hts'⟩ : ∃ ts', tokenize source' = .ok ts' := fault?_eq_none.1 (by decide +kernel)
  have hkinds : (tokenize source).map (·.map Token.kind) =
      (tokenize source').map (·.map Token.kind) := by decide +kernel
  rw [hts, hts'] at hkinds
  have hsame := Except.ok.inj hkinds
  refine ⟨ts, ts', hts, hts', hsame, by decide +kernel, by decide +kernel, ?_⟩
  exact (assembly_independent_of_positions "_start").2 source source' ts ts' hts hts' hsame

end BlockMachine
