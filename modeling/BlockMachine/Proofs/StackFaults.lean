import BlockMachine.Proofs.StackOperations

/-! # How stack operations fail

An operation that fails leaves the stack as it was, with one exception: the actions that compute
with integers take their operands off before they look at them.  What they have taken is read off
the stack from the top.

* `Stack.topFirst`, `Stack.dropTop` — the values from the top down, and the stack without the first
  few of them;
* `StackM.Atomic` — an operation that fails without effect, as most actions do
  (`Action.apply_atomic`);
* `Action.Fails` — why a computation fails, and how many values it has taken by then
  (`Action.error_of_computes`);
* `Fault.ofOperands` — the faults that come from the values on the stack or from its capacity.
-/

namespace BlockMachine

/-- A fault of a stack operation. -/
def Fault.ofOperands : Fault → Bool
  | stackOverflow _ | stackUnderflow | labelOperand _ | divisionByZero | overflow _ _ _
  | popCount _ _ => true
  | unknownOpcode _ _ | invalidCounter _ | invalidConstant _ | invalidBlock _ | invalidRange _
  | noEntry | labelCount | callDepth _ => false

namespace Stack

def topFirst (s : Stack) : List Value :=
  s.values.toList.reverse

/-- The stack without the `n` values on top. -/
def dropTop (s : Stack) (n : Nat) : Stack :=
  { s with values := s.values.take (s.depth - n) }

variable (s : Stack)

@[simp] theorem capacity_dropTop (n : Nat) : (s.dropTop n).capacity = s.capacity := rfl

@[simp] theorem depth_dropTop (n : Nat) : (s.dropTop n).depth = s.depth - n := by
  simp [dropTop, depth]

@[simp] theorem dropTop_zero : s.dropTop 0 = s := by
  simp [dropTop, depth]

@[simp] theorem length_topFirst : s.topFirst.length = s.depth := by
  simp [topFirst, depth]

@[simp] theorem topFirst_dropTop (n : Nat) : (s.dropTop n).topFirst = s.topFirst.drop n := by
  simp [topFirst, dropTop, depth, List.drop_reverse]

theorem dropTop_dropTop (m n : Nat) : (s.dropTop m).dropTop n = s.dropTop (m + n) := by
  simp only [dropTop, depth, Array.take_eq_extract, Array.extract_extract, Array.size_extract]
  congr 2
  omega

theorem back?_eq_head? : s.values.back? = s.topFirst.head? := by
  simp [topFirst]

theorem run_pop_eq :
    pop.run s =
      match s.topFirst with
      | [] => (.error .stackUnderflow, s)
      | v :: _ => (.ok v, s.dropTop 1) := by
  have hpop : ({ s with values := s.values.pop } : Stack) = s.dropTop 1 := by
    simp [dropTop, depth]
  rw [run_pop, back?_eq_head?, hpop]
  cases s.topFirst <;> rfl

/-- Taking an integer: a label is gone too, when it turns out to be one. -/
theorem run_popInteger_eq (user : String) :
    (popInteger user).run s =
      match s.topFirst with
      | [] => (.error .stackUnderflow, s)
      | .integer n :: _ => (.ok n, s.dropTop 1)
      | .label _ :: _ => (.error (.labelOperand user), s.dropTop 1) := by
  rw [popInteger, StackM.run_bind, run_pop_eq]
  obtain _ | ⟨_ | _, _⟩ := s.topFirst <;> rfl

end Stack

/-! ## Single operations -/

section

variable {s left : Stack} {f : Fault}

theorem Stack.push_error {v : Value} (h : (push v).run s = (.error f, left)) :
    s.capacity ≤ s.depth ∧ f = .stackOverflow s.capacity ∧ left = s := by
  rw [run_push] at h
  split at h
  · cases h
  · next hfull =>
    cases h
    exact ⟨Nat.le_of_not_lt hfull, rfl, rfl⟩

theorem Stack.pop_error (h : pop.run s = (.error f, left)) :
    s.topFirst = [] ∧ f = .stackUnderflow ∧ left = s := by
  rw [run_pop_eq] at h
  cases htop : s.topFirst with
  | nil =>
    rw [htop] at h
    cases h
    exact ⟨rfl, rfl, rfl⟩
  | cons v rest =>
    rw [htop] at h
    cases h

theorem Stack.pop_ok {v : Value} (h : pop.run s = (.ok v, left)) :
    ∃ rest, s.topFirst = v :: rest ∧ left = s.dropTop 1 := by
  rw [run_pop_eq] at h
  cases htop : s.topFirst with
  | nil =>
    rw [htop] at h
    cases h
  | cons w rest =>
    rw [htop] at h
    cases h
    exact ⟨rest, rfl, rfl⟩

/-- There is room for a value where others have been taken, unless the stack was over its
capacity. -/
theorem Stack.push_error_of_dropTop {n : Nat} {v : Value} (hn : 0 < n) (hdepth : n ≤ s.depth)
    (h : (push v).run (s.dropTop n) = (.error f, left)) :
    f = .stackOverflow s.capacity ∧ s.capacity < s.depth := by
  obtain ⟨hfull, rfl, _⟩ := push_error h
  simp only [depth_dropTop, capacity_dropTop] at hfull
  exact ⟨rfl, by omega⟩

theorem Stack.popCounted_error {n : Int32} (h : (popCounted n).run s = (.error f, left)) :
    (∃ requested, f = .popCount requested s.depth) ∧ left = s := by
  rw [run_popCounted, run_popMany] at h
  split at h
  · cases h
    exact ⟨⟨_, rfl⟩, rfl⟩
  · split at h
    · cases h
    · cases h
      exact ⟨⟨_, rfl⟩, rfl⟩

theorem Condition.test_error {c : Condition} (h : c.test.run s = (.error f, left)) :
    s.topFirst = [] ∧ f = .stackUnderflow := by
  cases c with
  | always => cases h
  | zero | nonzero =>
    rw [test, StackM.run_bind, Stack.run_peek, Stack.back?_eq_head?] at h
    · cases htop : s.topFirst with
      | nil =>
        rw [htop] at h
        cases h
        exact ⟨rfl, rfl⟩
      | cons v rest =>
        rw [htop] at h
        cases h
    · intro heq
      cases heq

end

/-- An operation that leaves the stack as it was when it fails. -/
def StackM.Atomic {α : Type} (x : StackM α) : Prop :=
  ∀ s f left, x.run s = (.error f, left) → left = s ∧ f.ofOperands

namespace StackM.Atomic

variable {α β : Type}

theorem pure (a : α) : (Pure.pure a : StackM α).Atomic := by
  intro s f left h
  cases h

theorem throw {f : Fault} (hf : f.ofOperands) : (MonadExcept.throw f : StackM α).Atomic := by
  intro s f left h
  cases h
  exact ⟨rfl, hf⟩

/-- Looking at the top changes nothing, so what comes behind it starts on the same stack. -/
theorem peek_bind {next : Value → StackM β} (hnext : ∀ v, (next v).Atomic) :
    (Stack.peek >>= next).Atomic := by
  intro s f left h
  rw [run_bind, Stack.run_peek] at h
  cases htop : s.values.back? with
  | none =>
    rw [htop] at h
    cases h
    exact ⟨rfl, rfl⟩
  | some v =>
    rw [htop] at h
    exact hnext v s f left h

theorem discard {x : StackM α} (hx : x.Atomic) : (Functor.discard x : StackM Unit).Atomic := by
  intro s f left h
  rw [discard_eq_bind, run_bind] at h
  cases hrun : x.run s with
  | mk r mid =>
    rw [hrun] at h
    cases r with
    | ok a => cases h
    | error e =>
      cases h
      exact hx s f left hrun

end StackM.Atomic

theorem Stack.push_atomic (v : Value) : (push v).Atomic := by
  intro s f left h
  obtain ⟨_, rfl, rfl⟩ := push_error h
  exact ⟨rfl, rfl⟩

theorem Stack.pop_atomic : pop.Atomic := by
  intro s f left h
  obtain ⟨_, rfl, rfl⟩ := pop_error h
  exact ⟨rfl, rfl⟩

theorem Stack.setTop_atomic (v : Value) : (setTop v).Atomic := by
  intro s f left h
  rw [run_setTop] at h
  split at h
  · cases h
  · cases h
    exact ⟨rfl, rfl⟩

theorem Action.bump_atomic (op : Arith) : (bump op).Atomic := by
  refine .peek_bind fun v => ?_
  cases v with
  | label name => exact .pure ()
  | integer n =>
    cases hop : op.eval? n 1 with
    | some m => simp only [hop]; exact (Stack.setTop_atomic _).discard
    | none => simp only [hop]; exact .throw rfl

/-! ## Actions that compute -/

namespace Action

/-- The actions that take two integers. -/
def isBinary : Action → Bool
  | arith _ | logic _ => true
  | pop | dup | inc | dec | not => false

/-- The actions that take integers off the stack and put their result on it. -/
def computes : Action → Bool
  | arith _ | logic _ | not => true
  | pop | dup | inc | dec => false

/-- The action fails with a fault on a stack with these values, the top one first, when it has taken
so many of them. -/
inductive Fails : Action → List Value → Fault → Nat → Prop
  | empty {a : Action} (ha : a.computes) : Fails a [] .stackUnderflow 0
  | label {a : Action} {name : String} {rest : List Value} (ha : a.computes) :
      Fails a (.label name :: rest) (.labelOperand a.text) 1
  | single {a : Action} {n : Int32} (ha : a.isBinary) : Fails a [.integer n] .stackUnderflow 1
  | second {a : Action} {n : Int32} {name : String} {rest : List Value} (ha : a.isBinary) :
      Fails a (.integer n :: .label name :: rest) (.labelOperand a.text) 2
  | divisionByZero {n : Int32} {rest : List Value} :
      Fails (.arith .div) (.integer 0 :: .integer n :: rest) .divisionByZero 2
  | overflow {op : Arith} {a b : Int32} {rest : List Value} (hop : op.eval? a b = none) :
      Fails (.arith op) (.integer b :: .integer a :: rest) (.overflow a op b) 2

variable {s left : Stack} {f : Fault}

theorem computes_of_isBinary {a : Action} (h : a.isBinary) : a.computes := by
  cases a with
  | arith _ | logic _ => rfl
  | pop | dup | inc | dec | not => cases h

/-- An integer cannot be taken, or what comes behind that fails. -/
theorem error_of_popInteger {a : Action} (ha : a.computes) {next : Int32 → StackM Unit}
    (h : (Stack.popInteger a.text >>= next).run s = (.error f, left)) :
    (∃ n, a.Fails s.topFirst f n ∧ left = s.dropTop n) ∨
      ∃ x rest, s.topFirst = .integer x :: rest ∧
        (next x).run (s.dropTop 1) = (.error f, left) := by
  rw [StackM.run_bind, Stack.run_popInteger_eq] at h
  cases htop : s.topFirst with
  | nil =>
    rw [htop] at h
    cases h
    exact .inl ⟨0, .empty ha, s.dropTop_zero.symm⟩
  | cons v rest =>
    rw [htop] at h
    cases v with
    | label name =>
      cases h
      exact .inl ⟨1, .label ha, rfl⟩
    | integer x => exact .inr ⟨x, rest, rfl, h⟩

theorem error_of_popIntegers {a : Action} (ha : a.isBinary) {next : Int32 → Int32 → StackM Unit}
    (h : (Stack.popInteger a.text >>= fun y => Stack.popInteger a.text >>= next y).run s =
      (.error f, left)) :
    (∃ n, a.Fails s.topFirst f n ∧ left = s.dropTop n) ∨
      ∃ x y rest, s.topFirst = .integer y :: .integer x :: rest ∧
        (next y x).run (s.dropTop 2) = (.error f, left) := by
  obtain hfirst | ⟨y, below, htop, h⟩ := error_of_popInteger (computes_of_isBinary ha) h
  · exact .inl hfirst
  · -- The second integer is taken from what the first one has left.
    simp only [StackM.run_bind, Stack.run_popInteger_eq, Stack.topFirst_dropTop, htop,
      List.drop_one, List.tail_cons, Stack.dropTop_dropTop] at h
    rw [htop]
    cases below with
    | nil =>
      cases h
      exact .inl ⟨1, .single ha, rfl⟩
    | cons v rest =>
      cases v with
      | label name =>
        cases h
        exact .inl ⟨2, .second ha, rfl⟩
      | integer x => exact .inr ⟨x, y, rest, rfl, h⟩

theorem error_of_compute {op : Arith}
    (h : (compute op (arith op).text).run s = (.error f, left)) :
    (∃ n, (arith op).Fails s.topFirst f n ∧ left = s.dropTop n) ∨
      f = .stackOverflow s.capacity ∧ s.capacity < s.depth := by
  obtain htaken | ⟨x, y, rest, htop, hrest⟩ := error_of_popIntegers rfl h
  · exact .inl htaken
  · have hdepth : 2 ≤ s.depth := by rw [← s.length_topFirst, htop]; simp
    by_cases hzero : op = .div ∧ y = 0
    · obtain ⟨rfl, rfl⟩ := hzero
      cases hrest
      exact .inl ⟨2, htop ▸ .divisionByZero, rfl⟩
    · simp only [hzero, if_false] at hrest
      cases hop : op.eval? x y with
      | none =>
        rw [hop] at hrest
        cases hrest
        exact .inl ⟨2, htop ▸ .overflow hop, rfl⟩
      | some c =>
        -- All that is left to fail is putting the result where two values were.
        rw [hop] at hrest
        exact .inr (Stack.push_error_of_dropTop Nat.zero_lt_two hdepth hrest)

theorem error_of_connect {op : Logic}
    (h : (connect op (logic op).text).run s = (.error f, left)) :
    (∃ n, (logic op).Fails s.topFirst f n ∧ left = s.dropTop n) ∨
      f = .stackOverflow s.capacity ∧ s.capacity < s.depth := by
  obtain htaken | ⟨x, y, rest, htop, hrest⟩ := error_of_popIntegers rfl h
  · exact .inl htaken
  · have hdepth : 2 ≤ s.depth := by rw [← s.length_topFirst, htop]; simp
    exact .inr (Stack.push_error_of_dropTop Nat.zero_lt_two hdepth hrest)

theorem error_of_negate (h : (negate not.text).run s = (.error f, left)) :
    (∃ n, not.Fails s.topFirst f n ∧ left = s.dropTop n) ∨
      f = .stackOverflow s.capacity ∧ s.capacity < s.depth := by
  obtain htaken | ⟨x, rest, htop, hrest⟩ := error_of_popInteger rfl h
  · exact .inl htaken
  · have hdepth : 1 ≤ s.depth := by rw [← s.length_topFirst, htop]; simp
    exact .inr (Stack.push_error_of_dropTop Nat.zero_lt_one hdepth hrest)

theorem error_of_computes {a : Action} (ha : a.computes) (h : a.apply.run s = (.error f, left)) :
    (∃ n, a.Fails s.topFirst f n ∧ left = s.dropTop n) ∨
      f = .stackOverflow s.capacity ∧ s.capacity < s.depth := by
  cases a with
  | arith op => exact error_of_compute h
  | logic op => exact error_of_connect h
  | not => exact error_of_negate h
  | pop | dup | inc | dec => cases ha

/-! ## All actions -/

theorem apply_atomic {a : Action} (ha : a.computes = false) : a.apply.Atomic := by
  cases a with
  | pop => exact Stack.pop_atomic.discard
  | dup => exact .peek_bind Stack.push_atomic
  | inc => exact bump_atomic .add
  | dec => exact bump_atomic .sub
  | arith _ | logic _ | not => cases ha

theorem Fails.ofOperands {a : Action} {values : List Value} {n : Nat} (h : a.Fails values f n) :
    f.ofOperands := by
  cases h <;> rfl

theorem ofOperands_of_error {a : Action} (h : a.apply.run s = (.error f, left)) :
    f.ofOperands := by
  cases ha : a.computes with
  | false => exact (apply_atomic ha s f left h).2
  | true =>
    obtain ⟨n, hfails, _⟩ | ⟨rfl, _⟩ := error_of_computes ha h
    · exact hfails.ofOperands
    · rfl

end Action

end BlockMachine
