import BlockMachine.Program.Image
import Mathlib.Logic.Basic

/-! # Writing an image into bounded room

Two things may stop the writing of an image: a label among the constants, which has no stored form,
and a buffer that is full.  Whichever comes first in the image is reported, and what was written
before it is a front part of what is written into a buffer of any size.

* `deliverable` — the bytes that a program has in a file: all of its image, or what stands in front
  of its first label;
* `deliver_room` — writing steps into bounded room, compared with the same ones into any room;
* `deliver_writes` — what the steps of a program write;
* `delivery_into_room` — the two together.
-/

namespace BlockMachine

/-- All numbers of the program have 64 bits. -/
structure Program.FitsWords (p : Program) : Prop where
  blockCount : p.blocks.size < UInt64.size
  bounds : ∀ r ∈ p.blocks, r.start < UInt64.size ∧ r.stop < UInt64.size
  constantCount : p.constants.size < UInt64.size
  codeSize : p.code.size < UInt64.size
  words : ∀ w ∈ p.code, w < UInt64.size

/-- The name of a label; none for an integer. -/
def Value.label? : Value → Option String
  | integer _ => none
  | label name => some name

/-- The first label among values. -/
def firstLabel? (vs : List Value) : Option String :=
  vs.findSome? Value.label?

namespace Image

variable {α : Type} {ws ws' : List Write} {written : Bytes} {error : ImageError}

/-- How writing values ends when there is room for them. -/
def labelOutcome (vs : List Value) : Except ImageError Unit :=
  match firstLabel? vs with
  | some name => .error (.labelConstant name)
  | none => .ok ()

def rangeBytes (r : Range) : Bytes :=
  littleEndian 8 r.start ++ littleEndian 8 r.stop

/-- The bytes of values up to the first label. -/
def constantBytes : List Value → Bytes
  | .integer n :: vs => integerTag :: littleEndian 4 n.toUInt32.toNat ++ constantBytes vs
  | .label _ :: _ | [] => []

/-- What is written of a program when there is room for it; the code stands behind the constants, so
a label among them keeps it out. -/
def deliverable (p : Program) : Bytes :=
  magic ++ [version]
    ++ (littleEndian 8 p.blocks.size ++ p.blocks.toList.flatMap rangeBytes)
    ++ (littleEndian 8 p.constants.size ++ constantBytes p.constants.toList)
    ++ if (firstLabel? p.constants.toList).isSome then []
      else littleEndian 8 p.code.size ++ p.code.toList.flatMap (littleEndian 8)

/-! ## Bounded room -/

/-- What does not fit is cut off, and the fault of the full buffer takes the place of all later
ones. -/
theorem deliver_room (room : Nat) (ws : List Write) :
    deliver (some room) ws =
      if room < (deliver none ws).1.length then
        ((deliver none ws).1.take room, .error (.io .bufferFull))
      else deliver none ws := by
  induction ws generalizing room with
  | nil => rfl
  | cons w ws ih =>
    cases w with
    | refuse error => rfl
    | field name bytes =>
      simp only [deliver, List.length_append, ih]
      by_cases hfits : bytes.length ≤ room
      · rw [if_pos hfits]
        by_cases hrest : room - bytes.length < (deliver none ws).1.length
        · rw [if_pos hrest, if_pos (by omega), List.take_append, List.take_of_length_le hfits]
        · rw [if_neg hrest, if_neg (by omega)]
      · rw [if_neg hfits, if_pos (by omega), List.take_append_of_le_length (by omega)]

/-! ## Unbounded room -/

theorem deliver_append_of_ok (h : deliver none ws = (written, .ok ())) (ws' : List Write) :
    deliver none (ws ++ ws') = (written ++ (deliver none ws').1, (deliver none ws').2) := by
  induction ws generalizing written with
  | nil =>
    cases h
    rfl
  | cons w ws ih =>
    cases w with
    | refuse error => cases h
    | field name bytes =>
      obtain ⟨rfl, hrest⟩ := Prod.mk.inj h
      rw [List.cons_append, deliver, ih (Prod.ext rfl hrest), List.append_assoc]

theorem deliver_append_of_error (h : deliver none ws = (written, .error error))
    (ws' : List Write) : deliver none (ws ++ ws') = (written, .error error) := by
  induction ws generalizing written with
  | nil => cases h
  | cons w ws ih =>
    cases w with
    | refuse other => exact h
    | field name bytes =>
      obtain ⟨rfl, hrest⟩ := Prod.mk.inj h
      rw [List.cons_append, deliver, ih (Prod.ext rfl hrest)]

theorem deliver_writeNumber {n : Nat} (hn : n < UInt64.size) (name : Field) :
    deliver none [writeNumber name n] = (littleEndian 8 n, .ok ()) := by
  simp [writeNumber, hn, deliver]

theorem deliver_writeRange {r : Range} (hr : r.start < UInt64.size ∧ r.stop < UInt64.size) :
    deliver none (writeRange r) = (rangeBytes r, .ok ()) := by
  have hboth := deliver_append_of_ok (deliver_writeNumber hr.1 .blockBegin)
    [writeNumber .blockEnd r.stop]
  rw [deliver_writeNumber hr.2] at hboth
  exact hboth

theorem deliver_flatMap {write : α → List Write} {content : α → Bytes} {as : List α}
    (h : ∀ a ∈ as, deliver none (write a) = (content a, .ok ())) :
    deliver none (as.flatMap write) = (as.flatMap content, .ok ()) := by
  induction as with
  | nil => rfl
  | cons a as ih =>
    rw [List.forall_mem_cons] at h
    rw [List.flatMap_cons, deliver_append_of_ok h.1, ih h.2, List.flatMap_cons]

/-- A section starts with its count. -/
theorem deliver_counted {count : Nat} (hcount : count < UInt64.size) (name : Field)
    {outcome : Except ImageError Unit} (h : deliver none ws = (written, outcome)) :
    deliver none (writeNumber name count :: ws) = (littleEndian 8 count ++ written, outcome) := by
  have hsection := deliver_append_of_ok (deliver_writeNumber hcount name) ws
  rw [h] at hsection
  exact hsection

/-- Values are written up to the first label. -/
theorem deliver_constants (vs : List Value) :
    deliver none (vs.flatMap writeConstant) = (constantBytes vs, labelOutcome vs) := by
  induction vs with
  | nil => rfl
  | cons v vs ih =>
    cases v with
    | label name => rfl
    | integer n =>
      have hfirst : deliver none (writeConstant (.integer n)) =
          (integerTag :: littleEndian 4 n.toUInt32.toNat, .ok ()) := rfl
      rw [List.flatMap_cons, deliver_append_of_ok hfirst, ih]
      rfl

/-- The code is written unless there is a label in front of it. -/
theorem deliver_writes {p : Program} (h : p.FitsWords) :
    deliver none (writes p) = (deliverable p, labelOutcome p.constants.toList) := by
  have hheader : deliver none [.field .magic magic, .field .version [version]] =
      (magic ++ [version], .ok ()) := rfl
  have hblocks := deliver_counted h.blockCount .blockCount (deliver_flatMap fun r hr =>
    deliver_writeRange (h.bounds r (Array.mem_toList_iff.1 hr)))
  have hconstants := deliver_counted h.constantCount .constantCount
    (deliver_constants p.constants.toList)
  have hcode := deliver_counted h.codeSize .codeSize (deliver_flatMap fun w hw =>
    deliver_writeNumber (h.words w (Array.mem_toList_iff.1 hw)) .codeWord)
  rw [writes, List.map_eq_flatMap, List.append_assoc, List.append_assoc,
    deliver_append_of_ok hheader, deliver_append_of_ok hblocks]
  simp only [deliverable, labelOutcome, List.append_assoc] at hconstants ⊢
  cases hlabel : firstLabel? p.constants.toList with
  | some name =>
    rw [hlabel] at hconstants
    rw [deliver_append_of_error hconstants]
    simp
  | none =>
    rw [hlabel] at hconstants
    rw [deliver_append_of_ok hconstants, hcode]
    simp

/-- Without bounds, the image of a program is written up to its first label, which is refused.  Into
bounded room the same bytes are written as far as they fit; if they do not, that is the fault which
is reported, and otherwise there is the same outcome. -/
theorem delivery_into_room (p : Program) (h : p.FitsWords) :
    deliver none (writes p) = (deliverable p, labelOutcome p.constants.toList) ∧
    ∀ room, deliver (some room) (writes p) =
      ((deliverable p).take room,
        if room < (deliverable p).length then .error (.io .bufferFull)
        else labelOutcome p.constants.toList) := by
  refine ⟨deliver_writes h, ?_⟩
  intro room
  rw [deliver_room, deliver_writes h]
  by_cases hroom : room < (deliverable p).length
  · rw [if_pos hroom, if_pos hroom]
  · rw [if_neg hroom, if_neg hroom, List.take_of_length_le (Nat.le_of_not_lt hroom)]

/-- A label behind one constant and in front of another label: the bytes in front of it end with the
room, or one byte behind it. -/
theorem delivery_into_room_two_labels :
    let p : Program := ⟨#[0], #[.integer 7, .label "x", .label "y"], #[⟨0, 1⟩]⟩
    p.FitsWords ∧ (deliverable p).length = 43 ∧
      deliver none (writes p) = (deliverable p, .error (.labelConstant "x")) ∧
      deliver (some 42) (writes p) = ((deliverable p).take 42, .error (.io .bufferFull)) ∧
      deliver (some 43) (writes p) = (deliverable p, .error (.labelConstant "x")) := by
  intro p
  have hfits : p.FitsWords :=
    ⟨by decide, by decide, by decide, by decide, by decide⟩
  obtain ⟨hnone, hsome⟩ := delivery_into_room p hfits
  exact ⟨hfits, rfl, hnone, hsome 42, hsome 43⟩

end Image

end BlockMachine
