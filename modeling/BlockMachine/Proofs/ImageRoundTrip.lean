import BlockMachine.Program.Image
import Mathlib.Logic.Basic

/-! # Images stand for programs one to one

An image is written by one walk over a program and read by another one over bytes.  Both are said
here in terms of the same writing steps, so that a reader is compared with a writer part by part:

* `Takes` — a byte string starts with what writing steps write, and this much is left behind it;
* `Inverts` — a reader gives a value exactly where the byte string starts with what is written for
  the value;
* `Program.Storable` — the programs that can be written (`storable_iff`).

Numbers, constants, counted sections and whole programs are read back in this sense.
-/

namespace BlockMachine

/-- All numbers of the program have 64 bits, and all its constants are integers. -/
structure Program.Storable (p : Program) : Prop where
  blockCount : p.blocks.size < UInt64.size
  bounds : ∀ r ∈ p.blocks, r.start < UInt64.size ∧ r.stop < UInt64.size
  constantCount : p.constants.size < UInt64.size
  constants : ∀ v ∈ p.constants, ∃ n, v = .integer n
  codeSize : p.code.size < UInt64.size
  words : ∀ w ∈ p.code, w < UInt64.size

namespace Image

variable {α β : Type} {ws ws' : List Write} {bytes rest : Bytes}

/-! ## Writing steps as byte strings -/

def Takes (ws : List Write) (bytes rest : Bytes) : Prop :=
  ∃ image, deliver none ws = (image, .ok ()) ∧ bytes = image ++ rest

theorem takes_nil : Takes [] bytes rest ↔ bytes = rest := by
  simp [Takes, deliver]

theorem takes_cons_field {name : Field} {first : Bytes} :
    Takes (.field name first :: ws) bytes rest ↔
      ∃ mid, bytes = first ++ mid ∧ Takes ws mid rest := by
  simp only [Takes, deliver]
  constructor
  · rintro ⟨_, h, rfl⟩
    obtain ⟨rfl, hdone⟩ := Prod.mk.inj h
    exact ⟨_, List.append_assoc _ _ _, _, Prod.ext rfl hdone, rfl⟩
  · rintro ⟨_, rfl, image, h, rfl⟩
    rw [h]
    exact ⟨_, rfl, (List.append_assoc _ _ _).symm⟩

theorem not_takes_cons_refuse {error : ImageError} :
    ¬ Takes (.refuse error :: ws) bytes rest := by
  rintro ⟨_, h, _⟩
  cases h

theorem takes_append :
    Takes (ws ++ ws') bytes rest ↔ ∃ mid, Takes ws bytes mid ∧ Takes ws' mid rest := by
  induction ws generalizing bytes with
  | nil => simp [takes_nil]
  | cons w ws ih =>
    cases w with
    | field name first =>
      simp only [List.cons_append, takes_cons_field, ih]
      constructor
      · rintro ⟨_, hfirst, mid, hws, hws'⟩
        exact ⟨mid, ⟨_, hfirst, hws⟩, hws'⟩
      · rintro ⟨mid, ⟨_, hfirst, hws⟩, hws'⟩
        exact ⟨_, hfirst, mid, hws, hws'⟩
    | refuse error => simp [not_takes_cons_refuse]

theorem takes_cons {w : Write} :
    Takes (w :: ws) bytes rest ↔ ∃ mid, Takes [w] bytes mid ∧ Takes ws mid rest :=
  @takes_append [w] ws bytes rest

theorem takes_field {name : Field} {first : Bytes} :
    Takes [.field name first] bytes rest ↔ bytes = first ++ rest := by
  simp [takes_cons_field, takes_nil]

theorem takes_writeNumber {name : Field} {n : Nat} :
    Takes [writeNumber name n] bytes rest ↔
      n < UInt64.size ∧ bytes = littleEndian 8 n ++ rest := by
  by_cases hn : n < UInt64.size
  · simp [writeNumber, hn, takes_field]
  · simp [writeNumber, hn, not_takes_cons_refuse]

/-! ## Which programs can be written -/

def Write.isField : Write → Bool
  | field _ _ => true
  | refuse _ => false

theorem deliver_ok_iff :
    (∃ image, deliver none ws = (image, .ok ())) ↔ ∀ w ∈ ws, w.isField := by
  induction ws with
  | nil => simp [deliver]
  | cons w ws ih =>
    rw [List.forall_mem_cons, ← ih]
    cases w with
    | field name first =>
      simp only [deliver, Write.isField, true_and]
      constructor
      · rintro ⟨_, h⟩
        exact ⟨_, Prod.ext rfl (Prod.mk.inj h).2⟩
      · rintro ⟨_, h⟩
        exact ⟨_, Prod.ext rfl (Prod.ext_iff.1 h).2⟩
    | refuse error => simp [deliver, Write.isField]

theorem isField_writeNumber {name : Field} {n : Nat} :
    (writeNumber name n).isField ↔ n < UInt64.size := by
  by_cases hn : n < UInt64.size
  · simp [writeNumber, Write.isField, hn]
  · simp [writeNumber, Write.isField, hn]

theorem isField_writeRange {r : Range} :
    (∀ w ∈ writeRange r, w.isField) ↔ r.start < UInt64.size ∧ r.stop < UInt64.size := by
  simp [writeRange, isField_writeNumber]

theorem isField_writeConstant {v : Value} :
    (∀ w ∈ writeConstant v, w.isField) ↔ ∃ n, v = .integer n := by
  cases v with
  | integer n => simp [writeConstant, Write.isField]
  | label name => simp [writeConstant, Write.isField]

theorem encode_eq_ok {p : Program} {image : Bytes} :
    encode p = .ok image ↔ deliver none (writes p) = (image, .ok ()) := by
  simp only [encode]
  split
  · next written h => simp [h]
  · next written error h => simp [h]

theorem storable_iff {p : Program} : p.Storable ↔ ∃ image, encode p = .ok image := by
  simp only [encode_eq_ok, deliver_ok_iff, writes, List.forall_mem_append, List.forall_mem_cons,
    List.forall_mem_flatMap, List.forall_mem_map, Array.mem_toList_iff, isField_writeNumber,
    isField_writeRange, isField_writeConstant]
  constructor
  · rintro ⟨hblocks, hbounds, hconstants, hintegers, hcode, hwords⟩
    exact ⟨⟨⟨⟨rfl, rfl, nofun⟩, hblocks, hbounds⟩, hconstants, hintegers⟩, hcode, hwords⟩
  · rintro ⟨⟨⟨_, hblocks, hbounds⟩, hconstants, hintegers⟩, hcode, hwords⟩
    exact ⟨hblocks, hbounds, hconstants, hintegers, hcode, hwords⟩

/-! ## Readers -/

def Inverts (read : Read α) (write : α → List Write) : Prop :=
  ∀ a bytes rest, read.run bytes = .ok (a, rest) ↔ Takes (write a) bytes rest

theorem run_bind_eq_ok {x : Read α} {f : α → Read β} {b : β} :
    (x >>= f).run bytes = .ok (b, rest) ↔
      ∃ a mid, x.run bytes = .ok (a, mid) ∧ (f a).run mid = .ok (b, rest) := by
  rw [StateT.run_bind]
  cases hx : x.run bytes with
  | error e => simp [bind, Except.bind]
  | ok first =>
    constructor
    · intro h
      exact ⟨_, _, rfl, h⟩
    · rintro ⟨a, mid, hfirst, h⟩
      cases hfirst
      exact h

theorem run_pure_eq_ok {a b : α} :
    (pure a : Read α).run bytes = .ok (b, rest) ↔ a = b ∧ bytes = rest := by
  rw [StateT.run_pure]
  simp [pure, Except.pure]

theorem readField_eq_ok {name : Field} {width : Nat} {first : Bytes} :
    (readField name width).run bytes = .ok (first, rest) ↔
      first.length = width ∧ bytes = first ++ rest := by
  show readField name width bytes = .ok (first, rest) ↔ _
  simp only [readField]
  by_cases hlong : (bytes.take width).length = width
  · rw [if_pos hlong, Except.ok.injEq, Prod.mk.injEq]
    constructor
    · rintro ⟨rfl, rfl⟩
      exact ⟨hlong, (List.take_append_drop _ _).symm⟩
    · rintro ⟨rfl, rfl⟩
      exact ⟨List.take_left, List.drop_left⟩
  · rw [if_neg hlong]
    refine ⟨nofun, ?_⟩
    rintro ⟨rfl, rfl⟩
    simp at hlong

theorem readNumber_inverts (name : Field) :
    Inverts (readNumber name) fun n => [writeNumber name n] := by
  intro n bytes rest
  simp only [readNumber, run_bind_eq_ok, readField_eq_ok, run_pure_eq_ok, takes_writeNumber]
  constructor
  · rintro ⟨digits, _, ⟨hwidth, rfl⟩, rfl, rfl⟩
    -- Eight bytes are the ones written for their number, which has 64 bits.
    have hlt := ofLittleEndian_lt digits
    have hdigits := littleEndian_ofLittleEndian digits
    rw [hwidth] at hlt hdigits
    exact ⟨hlt, by rw [hdigits]⟩
  · rintro ⟨hn, rfl⟩
    exact ⟨_, _, ⟨length_littleEndian 8 n, rfl⟩, ofLittleEndian_littleEndian hn, rfl⟩

theorem readRange_inverts : Inverts readRange writeRange := by
  intro r bytes rest
  simp only [readRange, run_bind_eq_ok, run_pure_eq_ok, readNumber_inverts _ _ _ _, writeRange]
  rw [takes_cons]
  constructor
  · rintro ⟨start, mid, hstart, stop, _, hstop, rfl, rfl⟩
    exact ⟨mid, hstart, hstop⟩
  · rintro ⟨mid, hstart, hstop⟩
    exact ⟨_, mid, hstart, _, _, hstop, rfl, rfl⟩

theorem readConstant_inverts : Inverts readConstant writeConstant := by
  intro v bytes rest
  simp only [readConstant, run_bind_eq_ok, readField_eq_ok]
  constructor
  · rintro ⟨tag, mid, ⟨_, rfl⟩, h⟩
    by_cases htag : tag = [integerTag]
    · rw [if_pos htag, run_bind_eq_ok] at h
      obtain ⟨digits, _, hdigits, hvalue⟩ := h
      rw [readField_eq_ok] at hdigits
      rw [run_pure_eq_ok] at hvalue
      obtain ⟨hwidth, rfl⟩ := hdigits
      obtain ⟨rfl, rfl⟩ := hvalue
      have hlt : ofLittleEndian digits < UInt32.size := by
        have hlt := ofLittleEndian_lt digits
        rwa [hwidth] at hlt
      have hdigits := littleEndian_ofLittleEndian digits
      rw [hwidth] at hdigits
      simp only [writeConstant, UInt32.toUInt32_toInt32, UInt32.toNat_ofNat_of_lt' hlt, hdigits]
      rw [takes_cons_field]
      exact ⟨_, by rw [htag], takes_field.2 rfl⟩
    · rw [if_neg htag] at h
      cases h
  · intro h
    cases v with
    | label name => exact absurd h not_takes_cons_refuse
    | integer n =>
      rw [writeConstant, takes_cons_field] at h
      obtain ⟨mid, rfl, h⟩ := h
      obtain rfl := takes_field.1 h
      have hlt : n.toUInt32.toNat < Nat.pow 256 4 := n.toUInt32.toNat_lt
      refine ⟨_, _, ⟨rfl, rfl⟩, ?_⟩
      rw [if_pos rfl, run_bind_eq_ok]
      refine ⟨_, _, readField_eq_ok.2 ⟨length_littleEndian _ _, rfl⟩, ?_⟩
      rw [ofLittleEndian_littleEndian hlt, UInt32.ofNat_toNat, Int32.toInt32_toUInt32]
      rfl

theorem readMany_inverts {item : Read α} {write : α → List Write} (h : Inverts item write)
    {count : Nat} {items : List α} :
    (readMany item count).run bytes = .ok (items, rest) ↔
      items.length = count ∧ Takes (items.flatMap write) bytes rest := by
  induction count generalizing items bytes rest with
  | zero =>
    rw [readMany, run_pure_eq_ok, List.length_eq_zero_iff]
    constructor
    · rintro ⟨rfl, rfl⟩
      exact ⟨rfl, takes_nil.2 rfl⟩
    · rintro ⟨rfl, hrest⟩
      exact ⟨rfl, takes_nil.1 hrest⟩
  | succ count ih =>
    simp only [readMany, run_bind_eq_ok, run_pure_eq_ok, h _ _ _, ih]
    constructor
    · rintro ⟨first, mid, hfirst, others, _, ⟨rfl, hothers⟩, rfl, rfl⟩
      exact ⟨rfl, takes_append.2 ⟨mid, hfirst, hothers⟩⟩
    · rintro ⟨hlength, htakes⟩
      obtain ⟨first, others, rfl⟩ := List.exists_cons_of_length_eq_add_one hlength
      obtain ⟨mid, hfirst, hothers⟩ := takes_append.1 htakes
      exact ⟨first, mid, hfirst, others, rest, ⟨Nat.succ.inj hlength, hothers⟩, rfl, rfl⟩

/-- A section starts with the number of its items. -/
theorem readCounted_eq_ok {item : Read α} {write : α → List Write} (h : Inverts item write)
    {name : Field} {next : List α → Read β} {b : β} :
    (readNumber name >>= fun count => readMany item count >>= next).run bytes = .ok (b, rest) ↔
      ∃ items mid, Takes (writeNumber name items.length :: items.flatMap write) bytes mid ∧
        (next items).run mid = .ok (b, rest) := by
  simp only [run_bind_eq_ok, readNumber_inverts _ _ _ _, readMany_inverts h]
  constructor
  · rintro ⟨_, counted, hcount, items, mid, ⟨rfl, hitems⟩, hnext⟩
    exact ⟨items, mid, takes_cons.2 ⟨counted, hcount, hitems⟩, hnext⟩
  · rintro ⟨items, mid, hsection, hnext⟩
    obtain ⟨counted, hcount, hitems⟩ := takes_cons.1 hsection
    exact ⟨_, counted, hcount, items, mid, ⟨rfl, hitems⟩, hnext⟩

/-- A field that has to hold certain bytes. -/
theorem readExpected_eq_ok {name : Field} {width : Nat} {expected : Bytes}
    (hwidth : expected.length = width) {error : Bytes → ImageError} {next : Read β} {b : β} :
    (do
      let found ← readField name width
      if found ≠ expected then throw (error found)
      next : Read β).run bytes = .ok (b, rest) ↔
      ∃ mid, Takes [.field name expected] bytes mid ∧ next.run mid = .ok (b, rest) := by
  simp only [run_bind_eq_ok, readField_eq_ok, takes_field]
  constructor
  · rintro ⟨found, mid, ⟨_, rfl⟩, hnext⟩
    by_cases hfound : found = expected
    · rw [if_neg (not_not.2 hfound)] at hnext
      exact ⟨mid, by rw [hfound], hnext⟩
    · rw [if_pos hfound] at hnext
      cases hnext
  · rintro ⟨mid, rfl, hnext⟩
    exact ⟨expected, mid, ⟨hwidth, rfl⟩, by rwa [if_neg (not_not.2 rfl)]⟩

theorem readProgram_inverts : Inverts readProgram writes := by
  intro p bytes rest
  have hmagic : magic.length = 5 := rfl
  have hversion : [version].length = 1 := rfl
  rw [readProgram, readExpected_eq_ok hmagic]
  simp only [readExpected_eq_ok hversion, readCounted_eq_ok readRange_inverts,
    readCounted_eq_ok readConstant_inverts, readCounted_eq_ok (readNumber_inverts .codeWord),
    run_pure_eq_ok, writes, List.map_eq_flatMap]
  constructor
  · rintro ⟨m₁, hmagic, m₂, hversion, blocks, m₃, hblocks, constants, m₄, hconstants, code, m₅,
      hcode, rfl, rfl⟩
    have hheader := takes_cons.2 ⟨m₁, hmagic, hversion⟩
    exact takes_append.2 ⟨m₄, takes_append.2 ⟨m₃, takes_append.2 ⟨m₂, hheader, hblocks⟩,
      hconstants⟩, hcode⟩
  · intro h
    obtain ⟨m₄, h, hcode⟩ := takes_append.1 h
    obtain ⟨m₃, h, hconstants⟩ := takes_append.1 h
    obtain ⟨m₂, h, hblocks⟩ := takes_append.1 h
    obtain ⟨m₁, hmagic, hversion⟩ := takes_cons.1 h
    exact ⟨m₁, hmagic, m₂, hversion, p.blocks.toList, m₃, hblocks, p.constants.toList, m₄,
      hconstants, p.code.toList, rest, hcode, rfl, rfl⟩

/-- Images and storable programs stand for each other: exactly the storable programs have an image,
and a byte string is read as a program exactly when it starts with the image of that program; what
is behind the image is left. -/
theorem image_round_trip (p : Program) (bytes rest : Bytes) :
    (p.Storable ↔ ∃ image, encode p = .ok image) ∧
    (decode bytes = .ok (p, rest) ↔ ∃ image, encode p = .ok image ∧ bytes = image ++ rest) := by
  refine ⟨storable_iff, ?_⟩
  simp only [encode_eq_ok]
  exact readProgram_inverts p bytes rest

end Image

end BlockMachine
