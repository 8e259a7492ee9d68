import Mathlib.Data.List.Forall2

/-! # Results that may be errors

Stages that can fail are put together by binding them and by walks over lists.  What is known of the
result as a whole is said here of its parts:

* `bind_eq_ok`, `mapError_eq_ok`, `forall₂_of_mapM` — a result is there when those of all parts are;
  `exists_mem_of_forall₂` finds the part of a list that a result belongs to;
* `mapM_map_mapError`, `foldlM_map_mapError` — a walk over changed items, its error changed too;
* `fault?` — the error of a result; that of a walk is the first one on the way (`fault?_mapM`,
  `fault?_foldlM`).
-/

namespace BlockMachine

variable {ε ε' α α' β : Type}

theorem bind_eq_ok {x : Except ε α} {f : α → Except ε β} {b : β} (h : x >>= f = .ok b) :
    ∃ a, x = .ok a ∧ f a = .ok b := by
  cases x with
  | error e => cases h
  | ok a => exact ⟨a, rfl, h⟩

theorem mapError_eq_ok {x : Except ε α} {f : ε → ε'} {a : α} (h : x.mapError f = .ok a) :
    x = .ok a := by
  cases x with
  | error e => cases h
  | ok a => cases h; rfl

theorem forall₂_of_mapM {f : α → Except ε β} {as : List α} {bs : List β}
    (h : as.mapM f = .ok bs) : List.Forall₂ (fun a b => f a = .ok b) as bs := by
  induction as generalizing bs with
  | nil => cases h; exact .nil
  | cons a as ih =>
    rw [List.mapM_cons] at h
    obtain ⟨b, ha, h⟩ := bind_eq_ok h
    obtain ⟨bs', has, h⟩ := bind_eq_ok h
    cases h
    exact .cons ha (ih has)

theorem exists_mem_of_forall₂ {R : α → β → Prop} {as : List α} {bs : List β}
    (h : List.Forall₂ R as bs) {b : β} (hb : b ∈ bs) : ∃ a ∈ as, R a b := by
  induction h with
  | nil => cases hb
  | cons hab _ ih =>
    cases hb with
    | head => exact ⟨_, List.mem_cons_self, hab⟩
    | tail _ hb =>
      obtain ⟨a, ha, hR⟩ := ih hb
      exact ⟨a, List.mem_cons_of_mem _ ha, hR⟩

/-! ## Walks over changed lists

The items are changed before a walk, and so is the error that it may end in. -/

theorem mapM_map_mapError {f : α → Except ε β} {f' : α' → Except ε' β} {g : α → α'} {h : ε → ε'}
    (hf : ∀ a, f' (g a) = (f a).mapError h) (as : List α) :
    (as.map g).mapM f' = (as.mapM f).mapError h := by
  induction as with
  | nil => rfl
  | cons a as ih =>
    rw [List.map_cons, List.mapM_cons, List.mapM_cons, ih, hf]
    cases f a with
    | error e => rfl
    | ok b => cases as.mapM f <;> rfl

theorem foldlM_map_mapError {f : β → α → Except ε β} {f' : β → α' → Except ε' β} {g : α → α'}
    {h : ε → ε'} (hf : ∀ b a, f' b (g a) = (f b a).mapError h) (as : List α) (b : β) :
    (as.map g).foldlM f' b = (as.foldlM f b).mapError h := by
  induction as generalizing b with
  | nil => rfl
  | cons a as ih =>
    rw [List.map_cons, List.foldlM_cons, List.foldlM_cons, hf]
    cases f b a with
    | error e => rfl
    | ok b' => exact ih b'

/-! ## Errors of walks -/

def fault? : Except ε α → Option ε
  | .ok _ => none
  | .error e => some e

theorem fault?_eq_none {x : Except ε α} : fault? x = none ↔ ∃ a, x = .ok a := by
  cases x with
  | ok a => exact ⟨fun _ => ⟨a, rfl⟩, fun _ => rfl⟩
  | error e => exact ⟨nofun, fun ⟨_, h⟩ => nomatch h⟩

theorem fault?_eq_some {x : Except ε α} {e : ε} : fault? x = some e ↔ x = .error e := by
  cases x <;> simp [fault?]

theorem fault?_mapM (f : α → Except ε β) (as : List α) :
    fault? (as.mapM f) = as.findSome? fun a => fault? (f a) := by
  induction as with
  | nil => rfl
  | cons a as ih =>
    rw [List.mapM_cons, List.findSome?_cons, ← ih]
    cases f a with
    | error e => rfl
    | ok b => cases as.mapM f <;> rfl

/-- The error of a fold is the first one of a step, if that does not depend on what has been
gathered before the step. -/
theorem fault?_foldlM {f : β → α → Except ε β} {g : α → Option ε} {as : List α}
    (h : ∀ a ∈ as, ∀ b, fault? (f b a) = g a) (b : β) :
    fault? (as.foldlM f b) = as.findSome? g := by
  induction as generalizing b with
  | nil => rfl
  | cons a as ih =>
    rw [List.forall_mem_cons] at h
    rw [List.foldlM_cons, List.findSome?_cons, ← h.1 b]
    cases f b a with
    | error e => rfl
    | ok b' => exact ih h.2 b'

end BlockMachine
