import BlockMachine.Proofs.ImageRoundTrip

/-! # Images that are cut short

A reader takes bytes from the front and never looks behind what it takes.  So bytes that come later
change neither a value nor a fault that was found without them.  The one fault they may mend is that
of bytes that are missing, and then there are bytes that do mend it.

* `Lasting` — a fault of the bytes that are there;
* `Steady` — a reader that bytes which come later do not change, but for missing ones;
* `Completable` — a reader that can always be given the bytes it misses;
* `decode_stable_under_more_bytes` — reading a program is steady, and can be completed once the
  magic is there.

All but the first field can be completed whatever stands in front: any number may be a count, and
then any items may follow.
-/

namespace BlockMachine.Image

variable {α β : Type} {bytes rest : Bytes} {e : ImageError}

/-! ## Steady readers -/

inductive Lasting : ImageError → Prop
  | magic : Lasting .invalidMagic
  | version (found : UInt8) : Lasting (.unsupportedVersion found)
  | constantType (tag : UInt8) : Lasting (.unknownConstantType tag)

theorem Lasting.not_truncated {field : Field} : ¬ Lasting (.truncated field) := by
  intro h
  cases h

structure Steady (read : Read α) : Prop where
  value : ∀ {bytes a rest}, read.run bytes = .ok (a, rest) →
    ∀ more, read.run (bytes ++ more) = .ok (a, rest ++ more)
  fault : ∀ {bytes e}, read.run bytes = .error e →
    (∃ field, e = .truncated field) ∨ Lasting e ∧ ∀ more, read.run (bytes ++ more) = .error e

theorem run_bind_eq_error {x : Read α} {f : α → Read β} :
    (x >>= f).run bytes = .error e ↔
      x.run bytes = .error e ∨ ∃ a mid, x.run bytes = .ok (a, mid) ∧ (f a).run mid = .error e := by
  rw [StateT.run_bind]
  cases hx : x.run bytes with
  | error e' => simp [bind, Except.bind]
  | ok first =>
    constructor
    · intro h
      exact .inr ⟨_, _, rfl, h⟩
    · rintro (h | ⟨a, mid, hfirst, h⟩)
      · cases h
      · cases hfirst
        exact h

theorem readField_eq_error {name : Field} {width : Nat} :
    (readField name width).run bytes = .error e ↔
      bytes.length < width ∧ e = .truncated name := by
  show readField name width bytes = .error e ↔ _
  simp only [readField, List.length_take]
  by_cases hlong : min width bytes.length = width
  · rw [if_pos hlong]
    simp only [reduceCtorEq, false_iff]
    omega
  · rw [if_neg hlong, Except.error.injEq, eq_comm]
    have hshort : bytes.length < width := by omega
    simp [hshort]

namespace Steady

theorem pure (a : α) : Steady (pure a : Read α) where
  value h more := by
    obtain ⟨rfl, rfl⟩ := run_pure_eq_ok.1 h
    rfl
  fault h := by cases h

theorem throw (h : Lasting e) : Steady (throw e : Read α) where
  value h' := by cases h'
  fault h' := by
    cases h'
    exact .inr ⟨h, fun _ => rfl⟩

theorem bind {x : Read α} {f : α → Read β} (hx : Steady x) (hf : ∀ a, Steady (f a)) :
    Steady (x >>= f) where
  value h more := by
    obtain ⟨a, mid, hfirst, hrest⟩ := run_bind_eq_ok.1 h
    exact run_bind_eq_ok.2 ⟨a, mid ++ more, hx.value hfirst more, (hf a).value hrest more⟩
  fault h := by
    -- A fault of the second part lasts because the first one gives the same value and leaves the
    -- bytes that come later behind what it left before.
    obtain hfirst | ⟨a, mid, hfirst, hrest⟩ := run_bind_eq_error.1 h
    · obtain hcut | ⟨hlasting, hmore⟩ := hx.fault hfirst
      · exact .inl hcut
      · exact .inr ⟨hlasting, fun more => run_bind_eq_error.2 (.inl (hmore more))⟩
    · obtain hcut | ⟨hlasting, hmore⟩ := (hf a).fault hrest
      · exact .inl hcut
      · refine .inr ⟨hlasting, fun more => run_bind_eq_error.2 (.inr ?_)⟩
        exact ⟨a, mid ++ more, hx.value hfirst more, hmore more⟩

theorem ite {p : Prop} [Decidable p] {x y : Read α} (hx : Steady x) (hy : Steady y) :
    Steady (if p then x else y) := by
  split
  · exact hx
  · exact hy

end Steady

theorem steady_readField (name : Field) (width : Nat) : Steady (readField name width) where
  value h more := by
    obtain ⟨hwidth, rfl⟩ := readField_eq_ok.1 h
    exact readField_eq_ok.2 ⟨hwidth, List.append_assoc ..⟩
  fault h := .inl ⟨name, (readField_eq_error.1 h).2⟩

theorem steady_readNumber (name : Field) : Steady (readNumber name) :=
  (steady_readField name 8).bind fun _ => .pure _

theorem steady_readRange : Steady readRange :=
  (steady_readNumber _).bind fun _ => (steady_readNumber _).bind fun _ => .pure _

theorem steady_readConstant : Steady readConstant := by
  refine (steady_readField _ _).bind fun tag => .ite ?_ (.throw (.constantType _))
  exact (steady_readField _ _).bind fun _ => .pure _

theorem steady_readMany {item : Read α} (h : Steady item) (count : Nat) :
    Steady (readMany item count) := by
  induction count with
  | zero => exact .pure []
  | succ count ih => exact h.bind fun _ => ih.bind fun _ => .pure _

/-- A section with its count, and what follows it. -/
theorem Steady.counted {item : Read α} (h : Steady item) (name : Field) {next : List α → Read β}
    (hnext : ∀ items, Steady (next items)) :
    Steady (readNumber name >>= fun count => readMany item count >>= next) :=
  (steady_readNumber name).bind fun count => (steady_readMany h count).bind hnext

/-! ## Readers that can be completed -/

structure Completable (read : Read α) : Prop where
  start : ∃ bytes a, read.run bytes = .ok (a, [])
  resume : ∀ {bytes field}, read.run bytes = .error (.truncated field) →
    ∃ more a, read.run (bytes ++ more) = .ok (a, [])

namespace Completable

theorem pure (a : α) : Completable (pure a : Read α) where
  start := ⟨[], a, rfl⟩
  resume h := by cases h

/-- What is missing of the first part is added and then all of the second one; or the first part is
there, and stays as it is when the second one is completed. -/
theorem bind {x : Read α} {f : α → Read β} (hsteady : Steady x) (hx : Completable x)
    (hf : ∀ a, Completable (f a)) : Completable (x >>= f) where
  start := by
    obtain ⟨front, a, hfront⟩ := hx.start
    obtain ⟨back, b, hback⟩ := (hf a).start
    exact ⟨front ++ back, b, run_bind_eq_ok.2 ⟨a, back, hsteady.value hfront back, hback⟩⟩
  resume := by
    intro bytes field h
    obtain hfirst | ⟨a, mid, hfirst, hrest⟩ := run_bind_eq_error.1 h
    · obtain ⟨more, a, hmore⟩ := hx.resume hfirst
      obtain ⟨back, b, hback⟩ := (hf a).start
      refine ⟨more ++ back, b, run_bind_eq_ok.2 ⟨a, back, ?_, hback⟩⟩
      rw [← List.append_assoc]
      exact hsteady.value hmore back
    · obtain ⟨more, b, hmore⟩ := (hf a).resume hrest
      exact ⟨more, b, run_bind_eq_ok.2 ⟨a, mid ++ more, hsteady.value hfirst more, hmore⟩⟩

/-- A byte that has one right value, the others being faults of their own. -/
theorem byte {name : Field} (right : UInt8) {f : Bytes → Read β}
    (hright : Completable (f [right]))
    (hwrong : ∀ found, found ≠ [right] → ∃ e, Lasting e ∧ f found = throw e) :
    Completable (readField name 1 >>= f) := by
  obtain ⟨back, b, hback⟩ := hright.start
  have hstart : (readField name 1 >>= f).run (right :: back) = .ok (b, []) :=
    run_bind_eq_ok.2 ⟨[right], back, readField_eq_ok.2 ⟨rfl, rfl⟩, hback⟩
  refine ⟨⟨_, b, hstart⟩, ?_⟩
  intro bytes field h
  obtain hfirst | ⟨found, mid, hfirst, hrest⟩ := run_bind_eq_error.1 h
  · -- There was no byte at all.
    obtain ⟨hshort, -⟩ := readField_eq_error.1 hfirst
    obtain rfl : bytes = [] := List.length_eq_zero_iff.1 (Nat.lt_one_iff.1 hshort)
    exact ⟨_, b, hstart⟩
  · by_cases hfound : found = [right]
    · subst hfound
      obtain ⟨more, b, hmore⟩ := hright.resume hrest
      have hbyte := (steady_readField name 1).value hfirst more
      exact ⟨more, b, run_bind_eq_ok.2 ⟨_, _, hbyte, hmore⟩⟩
    · obtain ⟨e, hlasting, hthrow⟩ := hwrong found hfound
      rw [hthrow] at hrest
      cases hrest
      exact absurd hlasting Lasting.not_truncated

end Completable

theorem completable_readField (name : Field) (width : Nat) : Completable (readField name width) where
  start := ⟨List.replicate width 0, _, readField_eq_ok.2
    ⟨List.length_replicate, (List.append_nil _).symm⟩⟩
  resume := by
    intro bytes field h
    obtain ⟨hshort, -⟩ := readField_eq_error.1 h
    refine ⟨List.replicate (width - bytes.length) 0, _, readField_eq_ok.2
      ⟨?_, (List.append_nil _).symm⟩⟩
    rw [List.length_append, List.length_replicate]
    omega

theorem completable_readNumber (name : Field) : Completable (readNumber name) :=
  .bind (steady_readField name 8) (completable_readField name 8) fun _ => .pure _

theorem completable_readRange : Completable readRange :=
  .bind (steady_readNumber _) (completable_readNumber _) fun _ =>
    .bind (steady_readNumber _) (completable_readNumber _) fun _ => .pure _

theorem completable_readConstant : Completable readConstant := by
  refine .byte integerTag ?_ ?_
  · rw [if_pos rfl]
    exact .bind (steady_readField _ _) (completable_readField _ _) fun _ => .pure _
  · intro found hfound
    exact ⟨_, .constantType _, if_neg hfound⟩

theorem completable_readMany {item : Read α} (hsteady : Steady item) (h : Completable item)
    (count : Nat) : Completable (readMany item count) := by
  induction count with
  | zero => exact .pure []
  | succ count ih =>
    exact .bind hsteady h fun _ => .bind (steady_readMany hsteady count) ih fun _ => .pure _

theorem Completable.counted {item : Read α} (hsteady : Steady item) (h : Completable item)
    (name : Field) {next : List α → Read β} (hnext : ∀ items, Completable (next items)) :
    Completable (readNumber name >>= fun count => readMany item count >>= next) :=
  .bind (steady_readNumber name) (completable_readNumber name) fun count =>
    .bind (steady_readMany hsteady count) (completable_readMany hsteady h count) hnext

/-! ## Programs -/

/-- A program behind the magic and the version. -/
def readSections : Read Program := do
  let blocks ← readMany readRange (← readNumber .blockCount)
  let constants ← readMany readConstant (← readNumber .constantCount)
  let code ← readMany (readNumber .codeWord) (← readNumber .codeSize)
  return ⟨code.toArray, constants.toArray, blocks.toArray⟩

/-- A program behind the magic. -/
def readVersioned : Read Program := do
  let found ← readField .version 1
  if found ≠ [version] then throw (.unsupportedVersion (UInt8.ofNat (ofLittleEndian found)))
  readSections

theorem readProgram_eq :
    readProgram = (do
      let found ← readField .magic 5
      if found ≠ magic then throw .invalidMagic
      readVersioned) := rfl

theorem steady_readSections : Steady readSections :=
  steady_readRange.counted _ fun _ => steady_readConstant.counted _ fun _ =>
    (steady_readNumber _).counted _ fun _ => .pure _

theorem steady_readVersioned : Steady readVersioned :=
  (steady_readField _ _).bind fun _ =>
    .ite ((Steady.throw (.version _)).bind fun _ => steady_readSections) steady_readSections

theorem steady_readProgram : Steady readProgram := by
  rw [readProgram_eq]
  exact (steady_readField _ _).bind fun _ =>
    .ite ((Steady.throw .magic).bind fun _ => steady_readVersioned) steady_readVersioned

theorem completable_readSections : Completable readSections :=
  .counted steady_readRange completable_readRange _ fun _ =>
    .counted steady_readConstant completable_readConstant _ fun _ =>
      .counted (steady_readNumber _) (completable_readNumber _) _ fun _ => .pure _

theorem completable_readVersioned : Completable readVersioned := by
  refine .byte version ?_ ?_
  · exact completable_readSections
  · intro found hfound
    exact ⟨_, .version _, if_pos hfound⟩

/-- Reading that ends for want of bytes ends in the magic or can be completed. -/
theorem readProgram_truncated {field : Field} (h : readProgram.run bytes = .error (.truncated field))
    (hfield : field ≠ .magic) : ∃ more p, readProgram.run (bytes ++ more) = .ok (p, []) := by
  rw [readProgram_eq] at h ⊢
  obtain hfirst | ⟨found, mid, hfirst, hrest⟩ := run_bind_eq_error.1 h
  · obtain ⟨-, hcut⟩ := readField_eq_error.1 hfirst
    cases hcut
    exact absurd rfl hfield
  · by_cases hfound : found = magic
    · subst hfound
      obtain ⟨more, p, hmore⟩ := completable_readVersioned.resume hrest
      have hmagic := (steady_readField .magic 5).value hfirst more
      exact ⟨more, p, run_bind_eq_ok.2 ⟨_, _, hmagic, hmore⟩⟩
    · -- A wrong magic is reported as such, not as missing bytes.
      rw [if_pos hfound] at hrest
      cases hrest

/-- Bytes behind those that are there change neither a program, of which the same bytes are read,
nor any fault but that of missing bytes.  Unless they are missing in the magic, they can be added so
that a program is read. -/
theorem decode_stable_under_more_bytes (bytes : Bytes) :
    (∀ p rest, decode bytes = .ok (p, rest) →
      ∀ more, decode (bytes ++ more) = .ok (p, rest ++ more)) ∧
    (∀ e, decode bytes = .error e → (∀ field, e ≠ .truncated field) →
      Lasting e ∧ ∀ more, decode (bytes ++ more) = .error e) ∧
    ∀ field, decode bytes = .error (.truncated field) → field ≠ .magic →
      ∃ more p, decode (bytes ++ more) = .ok (p, []) := by
  refine ⟨fun p rest => steady_readProgram.value, ?_, fun field => readProgram_truncated⟩
  intro e h hother
  obtain ⟨field, hcut⟩ | hlasting := steady_readProgram.fault h
  · exact absurd hcut (hother field)
  · exact hlasting

/-- Bytes behind a program, a constant of an unknown type, and a table of two blocks that is cut in
the first one. -/
theorem decode_stable_under_more_bytes_cut_table :
    let header := magic ++ [version]
    let whole := header ++ littleEndian 8 0 ++ littleEndian 8 0 ++ littleEndian 8 1 ++
      littleEndian 8 13 ++ [9]
    let odd := header ++ littleEndian 8 0 ++ littleEndian 8 2 ++ [7]
    let cut := header ++ littleEndian 8 2 ++ [1, 0, 0]
    (decode whole = .ok (⟨#[13], #[], #[]⟩, [9]) ∧
      ∀ more, decode (whole ++ more) = .ok (⟨#[13], #[], #[]⟩, [9] ++ more)) ∧
    (decode odd = .error (.unknownConstantType 7) ∧
      ∀ more, decode (odd ++ more) = .error (.unknownConstantType 7)) ∧
    decode cut = .error (.truncated .blockBegin) ∧
      ∃ more p, decode (cut ++ more) = .ok (p, []) := by
  intro header whole odd cut
  have hwhole : decode whole = .ok (⟨#[13], #[], #[]⟩, [9]) := rfl
  have hodd : decode odd = .error (.unknownConstantType 7) := rfl
  have hcut : decode cut = .error (.truncated .blockBegin) := rfl
  refine ⟨⟨hwhole, ?_⟩, ⟨hodd, ?_⟩, hcut, ?_⟩
  · exact (decode_stable_under_more_bytes whole).1 _ _ hwhole
  · exact ((decode_stable_under_more_bytes odd).2.1 _ hodd (by simp)).2
  · exact (decode_stable_under_more_bytes cut).2.2 _ hcut (by decide)

end BlockMachine.Image
