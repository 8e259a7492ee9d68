import BlockMachine.Machine.Stack

/-! # What stack operations keep

A small logic for operations on the operand stack.  `StackM.Ensures pre x post failed` says that
`x`, started on a stack with the property `pre`, leaves a stack with the property `post` of its
result, or one with the property `failed` of its fault.  The rules follow the way operations are
put together, so a property of all actions comes from what the few primitive operations do.

* `Stack.Holds` — the stack has a given capacity, is not over it, and all its values are of a
  given kind;
* `Fault.isStatic` — the faults that tell of a malformed program, not of its values or limits;
* `Action.apply_preserves` — every action keeps `Stack.Holds` for any kind that has all integers,
  and gives a static fault only where the kind has labels.
-/

namespace BlockMachine

/-- A fault of the program itself: no choice of limits and no other values on the stack would have
led around it, save that a label stands where an integer should. -/
def Fault.isStatic : Fault → Bool
  | unknownOpcode _ _ | invalidCounter _ | invalidConstant _ | invalidBlock _ | invalidRange _
  | noEntry | labelOperand _ | labelCount => true
  | stackOverflow _ | stackUnderflow | divisionByZero | overflow _ _ _ | popCount _ _
  | callDepth _ => false

namespace StackM

variable {α β : Type} {pre : Stack → Prop} {failed : Fault → Stack → Prop}

def Ensures (pre : Stack → Prop) (x : StackM α) (post : α → Stack → Prop)
    (failed : Fault → Stack → Prop) : Prop :=
  ∀ s, pre s →
    match x.run s with
    | (.ok a, left) => post a left
    | (.error f, left) => failed f left

theorem Ensures.pure {post : α → Stack → Prop} {a : α} (h : ∀ s, pre s → post a s) :
    (Pure.pure a : StackM α).Ensures pre post failed := by
  intro s hs
  rw [run_pure]
  exact h s hs

theorem Ensures.throw {post : α → Stack → Prop} {f : Fault} (h : ∀ s, pre s → failed f s) :
    (MonadExcept.throw f : StackM α).Ensures pre post failed := by
  intro s hs
  rw [run_throw]
  exact h s hs

theorem Ensures.bind {x : StackM α} {f : α → StackM β} {mid : α → Stack → Prop}
    {post : β → Stack → Prop} (hx : x.Ensures pre mid failed)
    (hf : ∀ a, (f a).Ensures (mid a) post failed) : (x >>= f).Ensures pre post failed := by
  intro s hs
  have hrun := hx s hs
  rw [run_bind]
  cases hx : x.run s with
  | mk r left =>
    rw [hx] at hrun
    cases r with
    | ok a => exact hf a left hrun
    | error e => exact hrun

theorem discard_eq_bind (x : StackM α) :
    (discard x : StackM Unit) = x >>= fun _ => Pure.pure () := by
  rw [discard, map_const, Function.comp_apply, map_eq_pure_bind]

end StackM

namespace Stack

structure Holds (capacity : Nat) (good : Value → Prop) (s : Stack) : Prop where
  capacity_eq : s.capacity = capacity
  depth_le : s.depth ≤ capacity
  values : ∀ v ∈ s.values, good v

variable {capacity : Nat} {good : Value → Prop}

theorem holds_empty (capacity : Nat) (good : Value → Prop) :
    (empty capacity).Holds capacity good :=
  ⟨rfl, Nat.zero_le _, fun v hv => by simp [empty] at hv⟩

theorem Holds.clear {s : Stack} (h : s.Holds capacity good) : s.clear.Holds capacity good :=
  ⟨h.capacity_eq, Nat.zero_le _, fun v hv => by simp [Stack.clear] at hv⟩

/-- Some of the values, and no others, are no more than there were. -/
theorem Holds.shrink {s : Stack} (h : s.Holds capacity good) {values : Array Value}
    (hsize : values.size ≤ s.values.size) (hvalues : ∀ v ∈ values, v ∈ s.values) :
    ({ s with values } : Stack).Holds capacity good :=
  ⟨h.capacity_eq, Nat.le_trans hsize h.depth_le, fun v hv => h.values v (hvalues v hv)⟩

theorem Holds.back {s : Stack} (h : s.Holds capacity good) {v : Value}
    (htop : s.values.back? = some v) : good v :=
  h.values v (Array.mem_of_back? htop)

theorem mem_of_mem_pop {values : Array Value} {v : Value} (h : v ∈ values.pop) : v ∈ values := by
  rw [Array.mem_iff_getElem] at h ⊢
  obtain ⟨i, hi, hv⟩ := h
  rw [Array.size_pop] at hi
  exact ⟨i, by omega, by rw [← hv, Array.getElem_pop]⟩

theorem Holds.pop {s : Stack} (h : s.Holds capacity good) :
    ({ s with values := s.values.pop } : Stack).Holds capacity good := by
  refine h.shrink ?_ fun v => mem_of_mem_pop
  rw [Array.size_pop]
  omega

end Stack

namespace StackM

variable {α β : Type} {capacity : Nat} {good : Value → Prop} {result : α → Prop}

/-- The operation leaves a stack that holds good values, a result with the given property, and no
static fault unless there are good labels. -/
def Preserves (capacity : Nat) (good : Value → Prop) (x : StackM α) (result : α → Prop) : Prop :=
  x.Ensures (Stack.Holds capacity good) (fun a s => result a ∧ s.Holds capacity good)
    fun f s => (f.isStatic → ∃ name, good (.label name)) ∧ s.Holds capacity good

theorem Preserves.pure {a : α} (h : result a) :
    (Pure.pure a : StackM α).Preserves capacity good result :=
  Ensures.pure fun _ hs => ⟨h, hs⟩

theorem Preserves.throw {f : Fault} (h : f.isStatic → ∃ name, good (.label name)) :
    (MonadExcept.throw f : StackM α).Preserves capacity good result :=
  Ensures.throw fun _ hs => ⟨h, hs⟩

theorem Preserves.bind {x : StackM α} {f : α → StackM β} {result' : β → Prop}
    (hx : x.Preserves capacity good result)
    (hf : ∀ a, result a → (f a).Preserves capacity good result') :
    (x >>= f).Preserves capacity good result' :=
  Ensures.bind hx fun a s hs => hf a hs.1 s hs.2

theorem Preserves.discard {x : StackM α} (hx : x.Preserves capacity good result) :
    (discard x : StackM Unit).Preserves capacity good fun _ => True := by
  rw [discard_eq_bind]
  exact hx.bind fun _ _ => .pure trivial

end StackM

namespace Stack

variable {capacity : Nat} {good : Value → Prop}

theorem push_preserves {v : Value} (hv : good v) :
    (push v).Preserves capacity good fun _ => True := by
  intro s hs
  rw [run_push]
  by_cases hroom : s.depth < s.capacity
  · rw [if_pos hroom]
    refine ⟨trivial, hs.capacity_eq, ?_, ?_⟩
    · have hpush : ({ s with values := s.values.push v } : Stack).depth = s.depth + 1 :=
        Array.size_push v
      rw [hpush, ← hs.capacity_eq]
      exact hroom
    · intro w hw
      cases Array.mem_push.1 hw with
      | inl hold => exact hs.values w hold
      | inr heq => exact heq ▸ hv
  · rw [if_neg hroom]
    exact ⟨nofun, hs⟩

theorem pop_preserves : pop.Preserves capacity good good := by
  intro s hs
  rw [run_pop]
  cases htop : s.values.back? with
  | none => exact ⟨nofun, hs⟩
  | some v => exact ⟨hs.back htop, hs.pop⟩

theorem peek_preserves : peek.Preserves capacity good good := by
  intro s hs
  rw [run_peek]
  cases htop : s.values.back? with
  | none => exact ⟨nofun, hs⟩
  | some v => exact ⟨hs.back htop, hs⟩

theorem setTop_preserves {v : Value} (hv : good v) :
    (setTop v).Preserves capacity good good := by
  intro s hs
  rw [run_setTop]
  cases htop : s.values.back? with
  | none => exact ⟨nofun, hs⟩
  | some old =>
    refine ⟨hs.back htop, hs.capacity_eq, ?_, ?_⟩
    · -- The stack is not empty, so taking one value off and putting one on leaves its size.
      have hsize : 0 < s.values.size := Array.size_pos_of_mem (Array.mem_of_back? htop)
      have hdepth : s.values.size ≤ capacity := hs.depth_le
      simp only [depth, Array.size_push, Array.size_pop]
      omega
    · intro w hw
      cases Array.mem_push.1 hw with
      | inl hold => exact hs.values w (mem_of_mem_pop hold)
      | inr heq => exact heq ▸ hv

theorem popInteger_preserves (user : String) :
    (popInteger user).Preserves capacity good fun _ => True := by
  refine pop_preserves.bind fun v hv => ?_
  cases v with
  | integer n => exact .pure trivial
  | label name => exact .throw fun _ => ⟨name, hv⟩

theorem popMany_preserves (count : Nat) :
    (popMany count).Preserves capacity good fun _ => True := by
  intro s hs
  rw [run_popMany]
  by_cases hcount : count ≤ s.depth
  · rw [if_pos hcount]
    refine ⟨trivial, hs.shrink ?_ fun v hv => ?_⟩
    · rw [Array.take_eq_extract, Array.size_extract]
      omega
    · rw [Array.take_eq_extract] at hv
      obtain ⟨i, hi, rfl⟩ := Array.mem_extract_iff_getElem.1 hv
      exact Array.getElem_mem _
  · rw [if_neg hcount]
    exact ⟨nofun, hs⟩

theorem popCounted_preserves (n : Int32) :
    (popCounted n).Preserves capacity good fun _ => True := by
  intro s hs
  rw [run_popCounted]
  by_cases hneg : n < 0
  · rw [if_pos hneg]
    exact ⟨nofun, hs⟩
  · rw [if_neg hneg]
    exact popMany_preserves n.toInt.toNat s hs

end Stack

/-! ## Tests and actions -/

section

variable {capacity : Nat} {good : Value → Prop}

theorem Condition.test_preserves (c : Condition) :
    c.test.Preserves capacity good fun _ => True := by
  cases c with
  | always => exact .pure trivial
  | zero | nonzero => exact Stack.peek_preserves.bind fun _ _ => .pure trivial

namespace Action

open Stack

theorem bump_preserves (hgood : ∀ n, good (.integer n)) (op : Arith) :
    (bump op).Preserves capacity good fun _ => True := by
  refine peek_preserves.bind fun v _ => ?_
  cases v with
  | integer n =>
    cases hop : op.eval? n 1 with
    | some m => simp only [hop]; exact (setTop_preserves (hgood m)).discard
    | none => simp only [hop]; exact .throw nofun
  | label name => exact .pure trivial

theorem compute_preserves (hgood : ∀ n, good (.integer n)) (op : Arith) (user : String) :
    (compute op user).Preserves capacity good fun _ => True := by
  refine (popInteger_preserves user).bind fun b _ => (popInteger_preserves user).bind fun a _ => ?_
  by_cases hzero : op = .div ∧ b = 0
  · simp only [hzero]
    exact StackM.Preserves.bind (.throw nofun) fun _ (h : False) => h.elim
  · simp only [hzero, if_false]
    cases hop : op.eval? a b with
    | some c => exact push_preserves (hgood c)
    | none => exact .throw nofun

theorem connect_preserves (hgood : ∀ n, good (.integer n)) (op : Logic) (user : String) :
    (connect op user).Preserves capacity good fun _ => True := by
  refine (popInteger_preserves user).bind fun b _ => (popInteger_preserves user).bind fun a _ => ?_
  exact push_preserves (hgood _)

theorem negate_preserves (hgood : ∀ n, good (.integer n)) (user : String) :
    (negate user).Preserves capacity good fun _ => True :=
  (popInteger_preserves user).bind fun _ _ => push_preserves (hgood _)

theorem apply_preserves (hgood : ∀ n, good (.integer n)) (a : Action) :
    a.apply.Preserves capacity good fun _ => True := by
  cases a with
  | pop => exact pop_preserves.discard
  | dup => exact peek_preserves.bind fun v hv => push_preserves hv
  | inc => exact bump_preserves hgood .add
  | dec => exact bump_preserves hgood .sub
  | arith op => exact compute_preserves hgood op _
  | logic op => exact connect_preserves hgood op _
  | not => exact negate_preserves hgood _

end Action

end

end BlockMachine
