import BlockMachine.Machine
import BlockMachine.Proofs.Runs

/-! # Sessions

A machine may be called any number of times, to run its program or to execute a code range, and
every call finds the stack that the one before has left.

* `Machine.Serves` — the machine after a sequence of calls that have all stopped;
* `Machine.Visits` — the states that a call goes through;
* `Guarantee` — a property of states that every step keeps, with what it says about answers and
  about stacks between calls.  It then holds throughout every session (`Guarantee.visits`,
  `Guarantee.answers`, `Guarantee.serves`): the two inductions, along a run and along the calls,
  are made here once.
-/

namespace BlockMachine

open StateTransition

inductive Call
  | run
  | execute (range : Range)
  deriving DecidableEq, Repr

namespace Machine

def answer (m : Machine) (fuel : Nat) : Call → Outcome
  | .run => m.run fuel
  | .execute r => m.execute fuel r

/-- The state in which a call starts to step, or the fault that it ends with before that. -/
def opening (m : Machine) : Call → Except Fault State
  | .run =>
    match m.program.entry? with
    | none => .error .noEntry
    | some r => m.clear.start r
  | .execute r => m.start r

theorem start_eq_ok {m : Machine} {r : Range} {s : State} (h : m.start r = .ok s) :
    m.program.covers r ∧ m.maxCallDepth ≠ 0 ∧ s = ⟨m.stack, .enter r 1, []⟩ := by
  simp only [start] at h
  by_cases hcovers : m.program.covers r
  · rw [if_pos hcovers] at h
    by_cases hzero : m.maxCallDepth = 0
    · rw [if_pos hzero] at h
      cases h
    · rw [if_neg hzero] at h
      cases h
      exact ⟨hcovers, hzero, rfl⟩
  · rw [if_neg hcovers] at h
    cases h

/-- A range that can be executed is refused only when no frame is allowed. -/
theorem start_eq_error {m : Machine} {r : Range} {f : Fault} (hcovers : m.program.covers r)
    (h : m.start r = .error f) : f = .callDepth 0 := by
  simp only [start] at h
  rw [if_pos hcovers] at h
  by_cases hzero : m.maxCallDepth = 0
  · rw [if_pos hzero] at h
    cases h
    rfl
  · rw [if_neg hzero] at h
    cases h

inductive Serves : Machine → List Call → Machine → Prop
  | nil (m : Machine) : Serves m [] m
  | cons {m m' : Machine} {c : Call} {calls : List Call} {fuel : Nat} {result : Result}
      {stack : Stack} (stopped : m.answer fuel c = .stopped result stack)
      (rest : Serves { m with stack } calls m') : Serves m (c :: calls) m'

def Visits (m : Machine) (c : Call) (s : State) : Prop :=
  ∃ start, m.opening c = .ok start ∧
    Reaches (Phase.next (advance m.program m.maxCallDepth)) (.running start) (.running s)

theorem execute_stopped {m : Machine} {r : Range} {fuel : Nat} {result : Result} {stack : Stack}
    (h : m.execute fuel r = .stopped result stack) :
    (∃ f, m.start r = .error f ∧ result = .error f ∧ stack = m.stack) ∨
    ∃ s, m.start r = .ok s ∧
      Reaches (Phase.next (advance m.program m.maxCallDepth)) (.running s)
        (.stopped result stack) := by
  simp only [execute] at h
  cases hstart : m.start r with
  | error f =>
    rw [hstart] at h
    cases h
    exact .inl ⟨f, rfl, rfl, rfl⟩
  | ok s =>
    rw [hstart] at h
    exact .inr ⟨s, rfl, run_stopped_iff_reaches.1 ⟨fuel, h⟩⟩

/-- A call that stops has ended before its first step, or its steps have led to the answer. -/
theorem answer_stopped {m : Machine} {c : Call} {fuel : Nat} {result : Result} {stack : Stack}
    (h : m.answer fuel c = .stopped result stack) :
    (∃ f, m.opening c = .error f ∧ result = .error f ∧
      (stack = m.stack ∨ stack = m.stack.clear)) ∨
    ∃ s, m.opening c = .ok s ∧
      Reaches (Phase.next (advance m.program m.maxCallDepth)) (.running s)
        (.stopped result stack) := by
  cases c with
  | run =>
    simp only [answer, Machine.run] at h
    simp only [opening]
    cases hentry : m.program.entry? with
    | none =>
      -- Only here does a run leave the stack that it has found.
      rw [hentry] at h
      cases h
      exact .inl ⟨_, rfl, rfl, .inl rfl⟩
    | some r =>
      rw [hentry] at h
      obtain ⟨f, hf, hresult, hstack⟩ | hsteps := execute_stopped h
      · exact .inl ⟨f, hf, hresult, .inr hstack⟩
      · exact .inr hsteps
  | execute r =>
    obtain ⟨f, hf, hresult, hstack⟩ | hsteps := execute_stopped h
    · exact .inl ⟨f, hf, hresult, .inl hstack⟩
    · exact .inr hsteps

theorem execute_unique {m : Machine} {r : Range} {fuel fuel' : Nat} {result result' : Result}
    {stack stack' : Stack} (h : m.execute fuel r = .stopped result stack)
    (h' : m.execute fuel' r = .stopped result' stack') : (result, stack) = (result', stack') := by
  simp only [execute] at h h'
  cases hstart : m.start r with
  | error f =>
    rw [hstart] at h h'
    cases h
    cases h'
    rfl
  | ok s =>
    rw [hstart] at h h'
    exact Phase.stopped_unique (run_stopped_iff_reaches.1 ⟨fuel, h⟩)
      (run_stopped_iff_reaches.1 ⟨fuel', h'⟩)

/-- A call has one answer, whatever the fuel. -/
theorem answer_unique {m : Machine} {c : Call} {fuel fuel' : Nat} {result result' : Result}
    {stack stack' : Stack} (h : m.answer fuel c = .stopped result stack)
    (h' : m.answer fuel' c = .stopped result' stack') : (result, stack) = (result', stack') := by
  cases c with
  | execute r => exact execute_unique h h'
  | run =>
    simp only [answer, Machine.run] at h h'
    cases hentry : m.program.entry? with
    | none =>
      rw [hentry] at h h'
      cases h
      cases h'
      rfl
    | some r =>
      rw [hentry] at h h'
      exact execute_unique h h'

end Machine

/-- A property `state` of the states of a program that every step keeps, given that the calls are
`allowed` ones.  Every answer has the property `verdict`, and the stack between two calls has the
property `rest`. -/
structure Guarantee (p : Program) (maxCallDepth : Nat) (allowed : Call → Prop)
    (state : State → Prop) (verdict : Result → Prop) (rest : Stack → Prop) : Prop where
  clear : ∀ stack, rest stack → rest stack.clear
  opens : ∀ stack c s, allowed c → rest stack →
    (Machine.mk p maxCallDepth stack).opening c = .ok s → state s
  refuses : ∀ stack c f, allowed c → rest stack →
    (Machine.mk p maxCallDepth stack).opening c = .error f → verdict (.error f)
  steps : ∀ s, state s →
    (step p maxCallDepth s).phase.Meets state fun result stack => verdict result ∧ rest stack

namespace Guarantee

variable {p : Program} {maxCallDepth : Nat} {allowed : Call → Prop} {state : State → Prop}
  {verdict : Result → Prop} {rest : Stack → Prop}

theorem reaches (g : Guarantee p maxCallDepth allowed state verdict rest) {s : State}
    (hs : state s) {ph : Phase State}
    (h : Reaches (Phase.next (advance p maxCallDepth)) (.running s) ph) :
    ph.Meets state fun result stack => verdict result ∧ rest stack := by
  refine Phase.meets_of_reaches ?_ hs h
  rintro s hs _ ⟨⟩
  exact g.steps s hs

theorem visits (g : Guarantee p maxCallDepth allowed state verdict rest) {stack : Stack}
    (hstack : rest stack) {c : Call} (hc : allowed c) {s : State}
    (h : (Machine.mk p maxCallDepth stack).Visits c s) : state s := by
  obtain ⟨start, hopen, hreach⟩ := h
  exact g.reaches (g.opens stack c start hc hstack hopen) hreach

theorem answers (g : Guarantee p maxCallDepth allowed state verdict rest) {stack : Stack}
    (hstack : rest stack) {c : Call} (hc : allowed c) {fuel : Nat} {result : Result}
    {left : Stack} (h : (Machine.mk p maxCallDepth stack).answer fuel c = .stopped result left) :
    verdict result ∧ rest left := by
  obtain ⟨f, hopen, rfl, hleft⟩ | ⟨s, hopen, hreach⟩ := Machine.answer_stopped h
  · refine ⟨g.refuses stack c f hc hstack hopen, ?_⟩
    obtain rfl | rfl := hleft
    · exact hstack
    · exact g.clear stack hstack
  · exact g.reaches (g.opens stack c s hc hstack hopen) hreach

/-- A session changes nothing of the machine but its stack, which keeps its property. -/
theorem serves (g : Guarantee p maxCallDepth allowed state verdict rest) {m m' : Machine}
    {calls : List Call} (h : m.Serves calls m') (hm : m.program = p)
    (hdepth : m.maxCallDepth = maxCallDepth) (hstack : rest m.stack)
    (hcalls : ∀ c ∈ calls, allowed c) :
    ∃ stack, m' = ⟨p, maxCallDepth, stack⟩ ∧ rest stack := by
  induction h with
  | nil m =>
    obtain ⟨_, _, stack⟩ := m
    subst hm hdepth
    exact ⟨stack, rfl, hstack⟩
  | @cons m m' c calls fuel result left hstop _ ih =>
    -- The next call starts from what this one has left, whether it has failed or not.
    obtain ⟨_, _, stack⟩ := m
    subst hm hdepth
    obtain ⟨_, hleft⟩ := g.answers hstack (hcalls c List.mem_cons_self) hstop
    exact ih rfl rfl hleft fun c hc => hcalls c (List.mem_cons_of_mem _ hc)

end Guarantee

end BlockMachine
