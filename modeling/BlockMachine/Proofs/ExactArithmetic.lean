import BlockMachine.Proofs.FailingSteps

/-! # Exact arithmetic

The actions that compute give the result that the operation has on mathematical integers, or they
refuse to give one; nothing is ever wrapped or rounded to fit.

* `Fits` — the numbers that 32 bits can hold; of all quotients only one is not among them
  (`not_fits_tdiv_iff`);
* `Action.Yields` — what a step makes of the values on top of the stack, whatever lies below them;
* `Action.Exact` — the result is the exact number, or a fault where that does not fit;
* `actions_exact_or_refused` — all actions that compute, and where labels come from.
-/

namespace BlockMachine

/-! ## Numbers of 32 bits -/

/-- The numbers from `-2 ^ 31` up to `2 ^ 31 - 1`. -/
def Fits (n : Int) : Prop :=
  -2147483648 ≤ n ∧ n ≤ 2147483647

theorem fits_toInt (a : Int32) : Fits a.toInt :=
  ⟨a.le_toInt, Int.le_of_lt_add_one a.toInt_lt⟩

theorem exists_fit?_of_fits {n : Int} (h : Fits n) :
    ∃ c : Int32, c.toInt = n ∧ fit? n = some c := by
  have hfit : fit? n = some (Int32.ofInt n) := if_pos h
  exact ⟨Int32.ofInt n, toInt_of_fit? hfit, hfit⟩

theorem fit?_of_not_fits {n : Int} (h : ¬ Fits n) : fit? n = none :=
  if_neg h

/-- A quotient is no larger than the dividend, so only the sign of the smallest number can make it
leave the range. -/
theorem not_fits_tdiv_iff {a b : Int} (ha : Fits a) :
    ¬ Fits (a.tdiv b) ↔ a = -2147483648 ∧ b = -1 := by
  simp only [Fits] at ha ⊢
  by_cases hneg : b = -1
  · subst hneg
    rw [Int.tdiv_neg, Int.tdiv_one]
    omega
  · by_cases hone : b = 1
    · subst hone
      rw [Int.tdiv_one]
      omega
    · have hhalf : (a.tdiv b).natAbs ≤ a.natAbs / 2 := by
        rw [Int.natAbs_tdiv]
        by_cases hzero : b = 0
        · subst hzero
          exact (Nat.div_zero _).trans_le (Nat.zero_le _)
        · exact Nat.div_le_div_left (by omega) (by omega)
      omega

/-! ## Steps in front of an action -/

namespace Action

/-- A step in front of the action makes `left` of the values `top` on top of the stack, and goes on
behind the action or stops with a fault.  The values below stay as they are. -/
def Yields (a : Action) (top : Array Value) (outcome : Except Fault Unit) (left : Array Value) :
    Prop :=
  ∀ (p : Program) (maxCallDepth : Nat) (s : State) (rest : Array Value),
    s.opcode? p = some (.act a) → s.stack.values = rest ++ top →
    s.stack.depth ≤ s.stack.capacity →
      step p maxCallDepth s =
        match outcome with
        | .ok _ =>
          .next ⟨⟨s.stack.capacity, rest ++ left⟩, { s.frame with ip := s.frame.ip + 1 }, s.callers⟩
        | .error f => .stop (.error f) ⟨s.stack.capacity, rest ++ left⟩

/-- The action gives the integer `n`, or the fault `f` and the values `left` if `n` does not fit. -/
structure Exact (a : Action) (top : Array Value) (n : Int) (f : Fault) (left : Array Value) :
    Prop where
  given : Fits n → ∃ c : Int32, c.toInt = n ∧ a.Yields top (.ok ()) #[.integer c]
  refused : a.Yields top (.error f) left ↔ ¬ Fits n

variable {a : Action} {top left : Array Value} {outcome : Except Fault Unit}

/-- Where there are values on top, there is room for one when they are taken. -/
theorem yields_of_run (htop : 0 < top.size)
    (h : ∀ capacity rest, rest.size < capacity →
      a.apply.run ⟨capacity, rest ++ top⟩ = (outcome, ⟨capacity, rest ++ left⟩)) :
    a.Yields top outcome left := by
  intro p maxCallDepth s rest hop hvalues hdepth
  obtain ⟨⟨capacity, values⟩, frame, callers⟩ := s
  obtain rfl : values = rest ++ top := hvalues
  have hroom : rest.size < capacity := by
    simp only [Stack.depth, Array.size_append] at hdepth
    omega
  have hrun := h capacity rest hroom
  rw [step_of_opcode? hop]
  cases outcome with
  | ok u => exact State.perform_of_ok (s := ⟨_, frame, callers⟩) hrun _
  | error f => exact State.perform_of_error (s := ⟨_, frame, callers⟩) hrun _

/-- There is a program with the action in it, and what its step does is one thing only. -/
theorem Yields.unique {outcome' : Except Fault Unit} {left' : Array Value}
    (h : a.Yields top outcome left) (h' : a.Yields top outcome' left') : outcome = outcome' := by
  let p : Program := ⟨#[(Opcode.act a).word], #[], #[]⟩
  let s : State := ⟨⟨top.size, top⟩, .enter ⟨0, 1⟩ 1, []⟩
  have hop : s.opcode? p = some (.act a) := by simp [State.opcode?, p, s, Frame.enter]
  have hstep := h p 1 s #[] hop (by simp [s]) (Nat.le_refl _)
  have hstep' := h' p 1 s #[] hop (by simp [s]) (Nat.le_refl _)
  rw [hstep] at hstep'
  cases outcome with
  | ok u =>
    cases outcome' with
    | ok u' => rfl
    | error f' => cases hstep'
  | error f =>
    cases outcome' with
    | ok u' => cases hstep'
    | error f' =>
      simp only [Transition.stop.injEq, Except.error.injEq] at hstep'
      rw [hstep'.1]

theorem exact_of_run {n : Int} {f : Fault} (htop : 0 < top.size)
    (h : ∀ capacity rest, rest.size < capacity →
      a.apply.run ⟨capacity, rest ++ top⟩ =
        match fit? n with
        | some c => (.ok (), ⟨capacity, rest ++ #[.integer c]⟩)
        | none => (.error f, ⟨capacity, rest ++ left⟩)) : a.Exact top n f left := by
  have hgiven : Fits n → ∃ c : Int32, c.toInt = n ∧ a.Yields top (.ok ()) #[.integer c] := by
    intro hfits
    obtain ⟨c, hc, hfit⟩ := exists_fit?_of_fits hfits
    rw [hfit] at h
    exact ⟨c, hc, yields_of_run htop h⟩
  refine ⟨hgiven, ?_, ?_⟩
  · intro hyields hfits
    obtain ⟨c, _, hc⟩ := hgiven hfits
    cases hyields.unique hc
  · intro hfits
    rw [fit?_of_not_fits hfits] at h
    exact yields_of_run htop h

/-- An exact action fails in one way only. -/
theorem Exact.error_eq {n : Int} {f g : Fault} {left' : Array Value} (h : a.Exact top n f left)
    (hg : a.Yields top (.error g) left') : g = f := by
  by_cases hfits : Fits n
  · obtain ⟨c, _, hc⟩ := h.given hfits
    cases hg.unique hc
  · cases hg.unique (h.refused.2 hfits)
    rfl

end Action

/-! ## Operations on a stack with known values on top -/

namespace Stack

variable (capacity : Nat) (rest : Array Value)

theorem run_peek_push (v : Value) :
    peek.run ⟨capacity, rest.push v⟩ = (.ok v, ⟨capacity, rest.push v⟩) := by
  simp [run_peek]

theorem run_setTop_push (v w : Value) :
    (setTop w).run ⟨capacity, rest.push v⟩ = (.ok v, ⟨capacity, rest.push w⟩) := by
  simp [run_setTop]

theorem run_popInteger_push (user : String) (n : Int32) :
    (popInteger user).run ⟨capacity, rest.push (.integer n)⟩ = (.ok n, ⟨capacity, rest⟩) := by
  simp [popInteger, StackM.run_bind, run_pop]

theorem append_pair (v w : Value) : rest ++ #[v, w] = (rest.push v).push w :=
  rfl

variable {capacity rest}

theorem run_push_of_room (h : rest.size < capacity) (v : Value) :
    (push v).run ⟨capacity, rest⟩ = (.ok (), ⟨capacity, rest.push v⟩) := by
  rw [run_push, depth, if_pos h]

end Stack

namespace Action

open Stack

variable {capacity : Nat} {rest : Array Value}

theorem run_bump (op : Arith) (n : Int32) :
    (bump op).run ⟨capacity, rest ++ #[.integer n]⟩ =
      match op.eval? n 1 with
      | some m => (.ok (), ⟨capacity, rest ++ #[.integer m]⟩)
      | none => (.error (.overflow n op 1), ⟨capacity, rest ++ #[.integer n]⟩) := by
  simp only [Array.append_singleton]
  rw [bump, StackM.run_bind, run_peek_push]
  cases hop : op.eval? n 1 with
  | none => simp only [hop, StackM.run_throw]
  | some m =>
    simp only [hop]
    rw [StackM.discard_eq_bind, StackM.run_bind, run_setTop_push]
    rfl

theorem run_bump_label (op : Arith) (name : String) :
    (bump op).run ⟨capacity, rest ++ #[.label name]⟩ =
      (.ok (), ⟨capacity, rest ++ #[.label name]⟩) := by
  simp only [Array.append_singleton]
  rw [bump, StackM.run_bind, run_peek_push]
  rfl

theorem run_compute {op : Arith} {a b : Int32} (hzero : ¬ (op = .div ∧ b = 0))
    (hroom : rest.size < capacity) (user : String) :
    (compute op user).run ⟨capacity, rest ++ #[.integer a, .integer b]⟩ =
      match op.eval? a b with
      | some c => (.ok (), ⟨capacity, rest ++ #[.integer c]⟩)
      | none => (.error (.overflow a op b), ⟨capacity, rest ++ #[]⟩) := by
  rw [compute, append_pair]
  simp only [StackM.run_bind, run_popInteger_push, if_neg hzero, Array.append_singleton,
    Array.append_empty]
  cases hop : op.eval? a b with
  | none => rfl
  | some c => exact run_push_of_room hroom _

theorem run_compute_zero (a : Int32) (user : String) :
    (compute .div user).run ⟨capacity, rest ++ #[.integer a, .integer 0]⟩ =
      (.error .divisionByZero, ⟨capacity, rest ++ #[]⟩) := by
  rw [compute, append_pair]
  simp only [StackM.run_bind, run_popInteger_push, Array.append_empty]
  rfl

theorem run_connect (op : Logic) (a b : Int32) (hroom : rest.size < capacity) (user : String) :
    (connect op user).run ⟨capacity, rest ++ #[.integer a, .integer b]⟩ =
      (.ok (), ⟨capacity, rest ++ #[.ofBool (op.eval a b)]⟩) := by
  rw [connect, append_pair]
  simp only [StackM.run_bind, run_popInteger_push, Array.append_singleton]
  exact run_push_of_room hroom _

theorem run_negate (a : Int32) (hroom : rest.size < capacity) (user : String) :
    (negate user).run ⟨capacity, rest ++ #[.integer a]⟩ =
      (.ok (), ⟨capacity, rest ++ #[.ofBool (a == 0)]⟩) := by
  rw [negate, Array.append_singleton]
  simp only [StackM.run_bind, run_popInteger_push, Array.append_singleton]
  exact run_push_of_room hroom _

/-! ## Actions that compute -/

theorem arith_exact {op : Arith} {a b : Int32} (hzero : ¬ (op = .div ∧ b = 0)) :
    (arith op).Exact #[.integer a, .integer b] (op.exact a.toInt b.toInt) (.overflow a op b) #[] :=
  exact_of_run Nat.two_pos fun _ _ hroom => run_compute hzero hroom _

theorem inc_exact (a : Int32) :
    inc.Exact #[.integer a] (a.toInt + 1) (.overflow a .add 1) #[.integer a] :=
  exact_of_run Nat.one_pos fun _ _ _ => run_bump .add a

theorem dec_exact (a : Int32) :
    dec.Exact #[.integer a] (a.toInt - 1) (.overflow a .sub 1) #[.integer a] :=
  exact_of_run Nat.one_pos fun _ _ _ => run_bump .sub a

theorem logic_yields (op : Logic) (a b : Int32) :
    (logic op).Yields #[.integer a, .integer b] (.ok ()) #[.ofBool (op.eval a b)] :=
  yields_of_run Nat.two_pos fun _ _ hroom => run_connect op a b hroom _

theorem div_exact (a : Int32) {b : Int32} (hb : b ≠ 0) :
    (arith .div).Exact #[.integer a, .integer b] (a.toInt.tdiv b.toInt) (.overflow a .div b) #[] :=
  arith_exact (by simp [hb])

theorem div_yields_zero_iff (a b : Int32) :
    (arith .div).Yields #[.integer a, .integer b] (.error .divisionByZero) #[] ↔ b = 0 := by
  constructor
  · intro hyields
    by_contra hb
    cases (div_exact a hb).error_eq hyields
  · intro hb
    subst hb
    exact yields_of_run Nat.two_pos fun _ _ _ => run_compute_zero a _

theorem div_yields_overflow_iff (a b : Int32) :
    (arith .div).Yields #[.integer a, .integer b] (.error (.overflow a .div b)) #[] ↔
      a.toInt = -2147483648 ∧ b = -1 := by
  have hone : b.toInt = -1 ↔ b = -1 := Int32.toInt_inj (y := -1)
  rw [← hone]
  by_cases hb : b = 0
  · have hzero : b.toInt = 0 := by rw [hb]; rfl
    constructor
    · intro hyields
      cases hyields.unique ((div_yields_zero_iff a b).2 hb)
    · intro h
      omega
  · exact (div_exact a hb).refused.trans (not_fits_tdiv_iff (fits_toInt a))

theorem div_yields_quotient {a b : Int32} (hb : b ≠ 0)
    (hother : ¬ (a.toInt = -2147483648 ∧ b = -1)) :
    ∃ c : Int32, c.toInt = a.toInt.tdiv b.toInt ∧
      (arith .div).Yields #[.integer a, .integer b] (.ok ()) #[.integer c] := by
  apply (div_exact a hb).given
  by_contra hfits
  exact hother ((div_yields_overflow_iff a b).1 ((div_exact a hb).refused.2 hfits))

end Action

/-- What the actions make of the integers `a` and `b` on top of the stack, with `b` above `a`, and
of `a` alone where they have one operand. -/
structure ActionsOn (a b : Int32) : Prop where
  add : (Action.arith .add).Exact #[.integer a, .integer b] (a.toInt + b.toInt)
    (.overflow a .add b) #[]
  sub : (Action.arith .sub).Exact #[.integer a, .integer b] (a.toInt - b.toInt)
    (.overflow a .sub b) #[]
  mul : (Action.arith .mul).Exact #[.integer a, .integer b] (a.toInt * b.toInt)
    (.overflow a .mul b) #[]
  div_by_zero : (Action.arith .div).Yields #[.integer a, .integer b] (.error .divisionByZero) #[] ↔
    b = 0
  div_overflow : (Action.arith .div).Yields #[.integer a, .integer b]
    (.error (.overflow a .div b)) #[] ↔ a.toInt = -2147483648 ∧ b = -1
  div : b ≠ 0 → ¬ (a.toInt = -2147483648 ∧ b = -1) → ∃ c : Int32, c.toInt = a.toInt.tdiv b.toInt ∧
    (Action.arith .div).Yields #[.integer a, .integer b] (.ok ()) #[.integer c]
  inc : Action.inc.Exact #[.integer a] (a.toInt + 1) (.overflow a .add 1) #[.integer a]
  dec : Action.dec.Exact #[.integer a] (a.toInt - 1) (.overflow a .sub 1) #[.integer a]
  inc_label : ∀ name, Action.inc.Yields #[.label name] (.ok ()) #[.label name]
  dec_label : ∀ name, Action.dec.Yields #[.label name] (.ok ()) #[.label name]
  and : (Action.logic .and).Yields #[.integer a, .integer b] (.ok ())
    #[.integer (if a ≠ 0 ∧ b ≠ 0 then 1 else 0)]
  or : (Action.logic .or).Yields #[.integer a, .integer b] (.ok ())
    #[.integer (if a ≠ 0 ∨ b ≠ 0 then 1 else 0)]
  xor : (Action.logic .xor).Yields #[.integer a, .integer b] (.ok ())
    #[.integer (if a ≠ b then 1 else 0)]
  not : Action.not.Yields #[.integer a] (.ok ()) #[.integer (if a = 0 then 1 else 0)]

theorem actionsOn (a b : Int32) : ActionsOn a b where
  add := Action.arith_exact (by simp)
  sub := Action.arith_exact (by simp)
  mul := Action.arith_exact (by simp)
  div_by_zero := Action.div_yields_zero_iff a b
  div_overflow := Action.div_yields_overflow_iff a b
  div := Action.div_yields_quotient
  inc := Action.inc_exact a
  dec := Action.dec_exact a
  inc_label name := Action.yields_of_run Nat.one_pos fun _ _ _ => Action.run_bump_label .add name
  dec_label name := Action.yields_of_run Nat.one_pos fun _ _ _ => Action.run_bump_label .sub name
  and := by
    have h := Action.logic_yields .and a b
    simpa [Logic.eval, Value.ofBool] using h
  or := by
    have h := Action.logic_yields .or a b
    simpa [Logic.eval, Value.ofBool] using h
  xor := by
    have h := Action.logic_yields .xor a b
    simpa [Logic.eval, Value.ofBool] using h
  not := by
    have h : Action.not.Yields #[.integer a] (.ok ()) #[.ofBool (a == 0)] :=
      Action.yields_of_run Nat.one_pos fun _ _ hroom => Action.run_negate a hroom _
    simpa [Value.ofBool] using h

/-! ## Labels -/

/-- The label is on the stack of the machine or in the constant pool of its program. -/
def Machine.Knows (m : Machine) (name : String) : Prop :=
  .label name ∈ m.stack.values ∨ .label name ∈ m.program.constants

/-- An integer, or a label that the machine knows. -/
def Machine.Admits (m : Machine) (v : Value) : Prop :=
  ∀ name, v = .label name → m.Knows name

theorem Machine.admits_guarantee (m : Machine) :
    Guarantee m.program m.maxCallDepth (fun _ => True)
      (State.InBounds m.program m.maxCallDepth m.stack.capacity m.Admits) (fun _ => True)
      (Stack.Holds m.stack.capacity m.Admits) := by
  apply inBounds_guarantee
  · intro n name h
    cases h
  · intro v hv name h
    exact .inr (h ▸ hv)

/-- Arithmetic is exact or refused, and no operation computes a label: all labels on the stack of a
run come from the stack at its start or from the constants.  No stack holds more values than its
capacity, so that much is known of the one at the start. -/
theorem actions_exact_or_refused :
    (∀ a b : Int32, ActionsOn a b) ∧
    ∀ (m : Machine) (c : Call), m.stack.depth ≤ m.stack.capacity →
      (∀ s, m.Visits c s → ∀ name, .label name ∈ s.stack.values → m.Knows name) ∧
      ∀ fuel result left, m.answer fuel c = .stopped result left →
        ∀ name, .label name ∈ left.values → m.Knows name := by
  refine ⟨actionsOn, ?_⟩
  intro m c hroom
  have hstart : m.stack.Holds m.stack.capacity m.Admits :=
    ⟨rfl, hroom, fun v hv name h => .inl (h ▸ hv)⟩
  constructor
  · intro s hvisits name hname
    exact (m.admits_guarantee.visits hstart trivial hvisits).stack.values _ hname name rfl
  · intro fuel result left hanswer name hname
    exact (m.admits_guarantee.answers hstart trivial hanswer).2.values _ hname name rfl

/-- A negative quotient is rounded toward zero, above a label that the run has started with. -/
theorem actions_exact_or_refused_quotient :
    let p : Program := ⟨#[14], #[], #[]⟩
    let m : Machine := ⟨p, 1, ⟨3, #[.label "x", .integer (-7), .integer 2]⟩⟩
    let s : State := ⟨m.stack, .enter ⟨0, 1⟩ 1, []⟩
    let after : State := ⟨⟨3, #[.label "x", .integer (-3)]⟩, ⟨1, ⟨0, 1⟩, 1⟩, []⟩
    m.stack.depth ≤ m.stack.capacity ∧ step p 1 s = .next after ∧
      m.Visits (.execute ⟨0, 1⟩) after ∧ m.Knows "x" := by
  intro p m s after
  obtain ⟨hactions, hlabels⟩ := actions_exact_or_refused
  have hroom : m.stack.depth ≤ m.stack.capacity := Nat.le_refl 3
  obtain ⟨c, hc, hyields⟩ := (hactions (-7) 2).div (by decide) (by decide)
  obtain rfl : c = -3 := Int32.toInt_inj.1 hc
  have hstep : step p 1 s = .next after := hyields p 1 s #[.label "x"] rfl rfl hroom
  have hadvance : advance p 1 s = some (.running after) := by rw [advance, hstep]; rfl
  have hvisits : m.Visits (.execute ⟨0, 1⟩) after := ⟨s, rfl, .single hadvance⟩
  have hmem : .label "x" ∈ after.stack.values := by simp [after]
  exact ⟨hroom, hstep, hvisits, (hlabels m _ hroom).1 after hvisits "x" hmem⟩

end BlockMachine
