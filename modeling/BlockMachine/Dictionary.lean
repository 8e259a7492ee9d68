/-! # Dictionaries

Finite maps as lists of entries.  A key has at most one entry when all entries came in by `insert`
and `insertNew`.

* `get?_insert`, `get?_insertNew` — what the two ways of adding an entry mean for looking up.
-/

namespace BlockMachine

structure Dictionary (κ ν : Type) where
  entries : List (κ × ν)
  deriving DecidableEq, Repr

namespace Dictionary

variable {κ ν : Type} [DecidableEq κ]

def empty : Dictionary κ ν :=
  ⟨[]⟩

def get? (d : Dictionary κ ν) (key : κ) : Option ν :=
  (d.entries.find? fun entry => entry.1 = key).map Prod.snd

/-- The entries with a new value for a key. -/
def put (key : κ) (value : ν) : List (κ × ν) → List (κ × ν)
  | [] => [(key, value)]
  | entry :: rest => if entry.1 = key then (key, value) :: rest else entry :: put key value rest

/-- Gives a key a value, instead of the one it may have. -/
def insert (d : Dictionary κ ν) (key : κ) (value : ν) : Dictionary κ ν :=
  ⟨put key value d.entries⟩

/-- Gives a key a value, unless it has one. -/
def insertNew (d : Dictionary κ ν) (key : κ) (value : ν) : Dictionary κ ν :=
  if (d.get? key).isSome then d else d.insert key value

@[simp] theorem get?_empty (key : κ) : (empty : Dictionary κ ν).get? key = none := rfl

/-- An inserted value is the value of its key and of no other. -/
theorem get?_insert (d : Dictionary κ ν) (key other : κ) (value : ν) :
    (d.insert key value).get? other = if key = other then some value else d.get? other := by
  obtain ⟨entries⟩ := d
  induction entries with
  | nil => by_cases h : key = other <;> simp [insert, get?, put, h]
  | cons entry rest ih =>
    simp only [insert, get?] at ih
    by_cases hk : entry.1 = key
    · by_cases h : key = other
      · simp [insert, get?, put, hk, h]
      · have : ¬ entry.1 = other := hk ▸ h
        simp [insert, get?, put, hk, h]
    · by_cases ho : entry.1 = other
      · have hne : ¬ other = key := fun h => hk (ho.trans h)
        simp [insert, get?, put, ho, hne, Ne.symm hne]
      · simp [insert, get?, put, hk, ho, ih]

/-- The first value of a key stays. -/
theorem get?_insertNew (d : Dictionary κ ν) (key other : κ) (value : ν) :
    (d.insertNew key value).get? other =
      (d.get? other).or (if key = other then some value else none) := by
  unfold insertNew
  split
  · next h =>
    by_cases hk : key = other
    · subst hk
      obtain ⟨v, hv⟩ := Option.isSome_iff_exists.1 h
      simp [hv]
    · simp [hk]
  · next h =>
    rw [get?_insert]
    by_cases hk : key = other
    · subst hk
      simp at h
      simp [h]
    · simp [hk]

end Dictionary

end BlockMachine
