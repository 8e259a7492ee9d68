import BlockMachine.Proofs.CutImages
import Mathlib.Data.List.Basic

/-! # The field that a cut image ends in

The first bytes of an image are read as the whole image is, until one is missing.  The fault names
the field that this byte belongs to.

* `byteFields` — the field of every byte of an image, as the format lays them down;
* `EndsIn` — bytes that give out in a certain field of what is written;
* `Reports` — a reader that reports this field; readers one after the other do when each of them
  does (`Reports.bind`);
* `cut_image_names_field` — reading a program does.
-/

namespace BlockMachine.Image

variable {α β : Type} {ws ws' : List Write} {bytes : Bytes} {field : Field}

/-- The field that each byte of an image belongs to, in the order of the bytes. -/
def byteFields (p : Program) : List Field :=
  List.replicate 5 Field.magic ++ List.replicate 1 Field.version
    ++ List.replicate 8 Field.blockCount
    ++ p.blocks.toList.flatMap (fun _ =>
      List.replicate 8 Field.blockBegin ++ List.replicate 8 Field.blockEnd)
    ++ List.replicate 8 Field.constantCount
    ++ p.constants.toList.flatMap (fun _ =>
      List.replicate 1 Field.constantType ++ List.replicate 4 Field.integerConstant)
    ++ List.replicate 8 Field.codeSize
    ++ p.code.toList.flatMap fun _ => List.replicate 8 Field.codeWord

/-! ## The fields of writing steps -/

def Write.fields : Write → List Field
  | .field name bytes => List.replicate bytes.length name
  | .refuse _ => []

theorem fields_writeNumber {n : Nat} (hn : n < UInt64.size) (name : Field) :
    (writeNumber name n).fields = List.replicate 8 name := by
  rw [writeNumber, if_pos hn, Write.fields, length_littleEndian]

theorem fields_writeRange {r : Range} (hr : r.start < UInt64.size ∧ r.stop < UInt64.size) :
    (writeRange r).flatMap Write.fields =
      List.replicate 8 .blockBegin ++ List.replicate 8 .blockEnd := by
  rw [writeRange, List.flatMap_cons, List.flatMap_cons, List.flatMap_nil, List.append_nil,
    fields_writeNumber hr.1, fields_writeNumber hr.2]

theorem fields_writeConstant (n : Int32) :
    (writeConstant (.integer n)).flatMap Write.fields =
      List.replicate 1 .constantType ++ List.replicate 4 .integerConstant := rfl

/-- The format lays down the same fields as writing does. -/
theorem fields_writes {p : Program} (h : p.Storable) :
    (writes p).flatMap Write.fields = byteFields p := by
  have hblocks : (p.blocks.toList.flatMap writeRange).flatMap Write.fields =
      p.blocks.toList.flatMap fun _ =>
        List.replicate 8 .blockBegin ++ List.replicate 8 .blockEnd := by
    rw [List.flatMap_assoc]
    exact List.flatMap_congr fun r hr => fields_writeRange (h.bounds r (Array.mem_toList_iff.1 hr))
  have hconstants : (p.constants.toList.flatMap writeConstant).flatMap Write.fields =
      p.constants.toList.flatMap fun _ =>
        List.replicate 1 .constantType ++ List.replicate 4 .integerConstant := by
    rw [List.flatMap_assoc]
    refine List.flatMap_congr fun v hv => ?_
    obtain ⟨n, rfl⟩ := h.constants v (Array.mem_toList_iff.1 hv)
    exact fields_writeConstant n
  have hcode : (p.code.toList.map (writeNumber .codeWord)).flatMap Write.fields =
      p.code.toList.flatMap fun _ => List.replicate 8 .codeWord := by
    rw [List.flatMap_map]
    exact List.flatMap_congr fun w hw =>
      fields_writeNumber (h.words w (Array.mem_toList_iff.1 hw)) _
  simp only [writes, byteFields, List.flatMap_append, List.flatMap_cons, hblocks, hconstants, hcode,
    fields_writeNumber h.blockCount, fields_writeNumber h.constantCount,
    fields_writeNumber h.codeSize, List.append_assoc]
  rfl

theorem length_fields {image : Bytes} (h : deliver none ws = (image, .ok ())) :
    (ws.flatMap Write.fields).length = image.length := by
  induction ws generalizing image with
  | nil =>
    cases h
    rfl
  | cons w ws ih =>
    cases w with
    | field name whole =>
      obtain ⟨rfl, hrest⟩ := Prod.mk.inj h
      have hws := ih (Prod.ext rfl hrest)
      simp only [List.flatMap_cons, Write.fields, List.length_append, List.length_replicate, hws]
    | refuse error => cases h

/-! ## Bytes that give out -/

/-- Behind some whole fields, fewer bytes are left than the next field has, which is the given
one. -/
inductive EndsIn : List Write → Bytes → Field → Prop
  | here {name : Field} {whole part : Bytes} {ws : List Write}
      (hshort : part.length < whole.length) : EndsIn (.field name whole :: ws) part name
  | later {name field : Field} {whole rest : Bytes} {ws : List Write}
      (hrest : EndsIn ws rest field) : EndsIn (.field name whole :: ws) (whole ++ rest) field

theorem endsIn_take {image : Bytes} (h : deliver none ws = (image, .ok ())) {k : Nat}
    (hk : (ws.flatMap Write.fields)[k]? = some field) : EndsIn ws (image.take k) field := by
  induction ws generalizing image k with
  | nil => cases hk
  | cons w ws ih =>
    cases w with
    | refuse error => cases h
    | field name whole =>
      obtain ⟨rfl, hrest⟩ := Prod.mk.inj h
      simp only [List.flatMap_cons, Write.fields] at hk
      by_cases hin : k < whole.length
      · -- The cut is in the first field.
        rw [List.getElem?_append_left (by simpa using hin), List.getElem?_replicate_of_lt hin] at hk
        cases hk
        rw [List.take_append_of_le_length (Nat.le_of_lt hin)]
        exact .here (by rw [List.length_take]; omega)
      · rw [List.getElem?_append_right (by simpa using hin), List.length_replicate] at hk
        rw [List.take_append, List.take_of_length_le (Nat.le_of_not_lt hin)]
        exact .later (ih (Prod.ext rfl hrest) hk)

theorem EndsIn.append (h : EndsIn (ws ++ ws') bytes field) :
    EndsIn ws bytes field ∨ ∃ mid, Takes ws bytes mid ∧ EndsIn ws' mid field := by
  induction ws generalizing bytes with
  | nil => exact .inr ⟨bytes, takes_nil.2 rfl, h⟩
  | cons w ws ih =>
    cases h with
    | here hshort => exact .inl (.here hshort)
    | later hrest =>
      obtain hws | ⟨mid, hws, hws'⟩ := ih hrest
      · exact .inl (.later hws)
      · exact .inr ⟨mid, takes_cons_field.2 ⟨_, rfl, hws⟩, hws'⟩

/-! ## Readers -/

def Reports (read : Read α) (ws : List Write) : Prop :=
  ∀ ⦃bytes field⦄, EndsIn ws bytes field → read.run bytes = .error (.truncated field)

theorem reports_nil (read : Read α) : Reports read [] := by
  intro bytes field h
  cases h

/-- Bytes that give out in the second part are first read as a whole first part. -/
theorem Reports.bind {x : Read α} {f : α → Read β} {a : α} (hx : Reports x ws)
    (hvalue : ∀ {bytes rest}, Takes ws bytes rest → x.run bytes = .ok (a, rest))
    (hf : Reports (f a) ws') : Reports (x >>= f) (ws ++ ws') := by
  intro bytes field h
  obtain hws | ⟨mid, hws, hws'⟩ := h.append
  · exact run_bind_eq_error.2 (.inl (hx hws))
  · exact run_bind_eq_error.2 (.inr ⟨a, mid, hvalue hws, hf hws'⟩)

theorem reports_readField (name : Field) (whole : Bytes) :
    Reports (readField name whole.length) [.field name whole] := by
  intro bytes field h
  cases h with
  | here hshort => exact readField_eq_error.2 ⟨hshort, rfl⟩
  | later hrest => cases hrest

theorem readField_of_takes {name : Field} {whole rest : Bytes}
    (h : Takes [.field name whole] bytes rest) :
    (readField name whole.length).run bytes = .ok (whole, rest) :=
  readField_eq_ok.2 ⟨rfl, takes_field.1 h⟩

theorem reports_readNumber (name : Field) (n : Nat) :
    Reports (readNumber name) [writeNumber name n] := by
  intro bytes field h
  rw [writeNumber] at h
  split at h
  · have hfield := reports_readField name _ h
    rw [length_littleEndian] at hfield
    exact run_bind_eq_error.2 (.inl hfield)
  · cases h

theorem reports_readRange (r : Range) : Reports readRange (writeRange r) := by
  refine (reports_readNumber _ r.start).bind (readNumber_inverts _ _ _ _).2 ?_
  exact (reports_readNumber _ r.stop).bind (readNumber_inverts _ _ _ _).2 (reports_nil _)

theorem reports_readConstant (v : Value) : Reports readConstant (writeConstant v) := by
  cases v with
  | label name =>
    intro bytes field h
    cases h
  | integer n =>
    refine (reports_readField .constantType [integerTag]).bind readField_of_takes ?_
    rw [if_pos rfl]
    exact (reports_readField .integerConstant (littleEndian 4 _)).bind readField_of_takes
      (reports_nil _)

theorem readMany_of_takes {item : Read α} {write : α → List Write} (h : Inverts item write)
    {items : List α} {rest : Bytes} (htakes : Takes (items.flatMap write) bytes rest) :
    (readMany item items.length).run bytes = .ok (items, rest) :=
  (readMany_inverts h).2 ⟨rfl, htakes⟩

theorem reports_readMany {item : Read α} {write : α → List Write} (hinverts : Inverts item write)
    (hitem : ∀ a, Reports item (write a)) (items : List α) :
    Reports (readMany item items.length) (items.flatMap write) := by
  induction items with
  | nil => exact reports_nil _
  | cons a items ih =>
    rw [List.flatMap_cons, ← List.append_nil (items.flatMap write)]
    refine (hitem a).bind (hinverts _ _ _).2 ?_
    exact ih.bind (readMany_of_takes hinverts) (reports_nil _)

/-- A section with its count, and what follows it. -/
theorem reports_counted {item : Read α} {write : α → List Write} (hinverts : Inverts item write)
    (hitem : ∀ a, Reports item (write a)) (name : Field) (items : List α)
    {next : List α → Read β} (hnext : Reports (next items) ws') :
    Reports (readNumber name >>= fun count => readMany item count >>= next)
      (writeNumber name items.length :: items.flatMap write ++ ws') := by
  refine (reports_readNumber name items.length).bind (readNumber_inverts _ _ _ _).2 ?_
  exact (reports_readMany hinverts hitem items).bind (readMany_of_takes hinverts) hnext

/-- A field that has to hold certain bytes, and what follows it. -/
theorem reports_expected (name : Field) (expected : Bytes) {error : Bytes → ImageError}
    {next : Read β} (hnext : Reports next ws') :
    Reports (do
      let found ← readField name expected.length
      if found ≠ expected then throw (error found)
      next) (.field name expected :: ws') := by
  refine (reports_readField name expected).bind readField_of_takes ?_
  rw [if_neg (not_not.2 rfl)]
  exact hnext

theorem reports_readProgram (p : Program) : Reports readProgram (writes p) := by
  simp only [writes, List.append_assoc, List.map_eq_flatMap]
  refine reports_expected .magic magic (reports_expected .version [version] ?_)
  refine reports_counted readRange_inverts reports_readRange _ p.blocks.toList ?_
  refine reports_counted readConstant_inverts reports_readConstant _ p.constants.toList ?_
  rw [← List.append_nil (_ :: _)]
  exact reports_counted (readNumber_inverts _) (reports_readNumber _) _ p.code.toList
    (reports_nil _)

/-- Every program that can be stored has an image, and each byte of it belongs to a field of the
format.  The bytes in front of one alone are refused, and the fault names the field that this byte
belongs to. -/
theorem cut_image_names_field (p : Program) (h : p.Storable) :
    ∃ image, encode p = .ok image ∧ (byteFields p).length = image.length ∧
      ∀ k field, (byteFields p)[k]? = some field →
        decode (image.take k) = .error (.truncated field) := by
  obtain ⟨image, hencode⟩ := storable_iff.1 h
  have hdeliver := encode_eq_ok.1 hencode
  rw [← fields_writes h]
  refine ⟨image, hencode, length_fields hdeliver, ?_⟩
  intro k field hfield
  exact reports_readProgram p (endsIn_take hdeliver hfield)

/-- A program of 75 bytes, cut in front of its first byte, inside the only block, in front of the
only constant, inside that one, and in front of the last byte. -/
theorem cut_image_names_field_one_block :
    let p : Program := ⟨#[2, 0, 0], #[.integer 42], #[⟨0, 3⟩]⟩
    p.Storable ∧ ∃ image, encode p = .ok image ∧ image.length = 75 ∧
      decode (image.take 0) = .error (.truncated .magic) ∧
      decode (image.take 22) = .error (.truncated .blockEnd) ∧
      decode (image.take 38) = .error (.truncated .constantType) ∧
      decode (image.take 41) = .error (.truncated .integerConstant) ∧
      decode (image.take 74) = .error (.truncated .codeWord) := by
  intro p
  have hstorable : p.Storable := storable_iff.2 ⟨_, rfl⟩
  obtain ⟨image, hencode, hlength, hcut⟩ := cut_image_names_field p hstorable
  exact ⟨hstorable, image, hencode, hlength.symm, hcut 0 _ rfl, hcut 22 _ rfl, hcut 38 _ rfl,
    hcut 41 _ rfl, hcut 74 _ rfl⟩

end BlockMachine.Image
