import BlockMachine.Machine.Step
import Mathlib.Computability.StateTransition

/-! # Runs without fuel

A run goes through phases: it is going on in some state, or it has stopped with a result and a
stack.  This module frees runs from their fuel, so that a fact about all runs is proved from what
one step does.

* `Phase.next` — the phase behind a phase, for any machine given by its step function;
* `Phase.run_stopped_iff` — enough fuel gives an answer exactly when the stopped phase is reached;
* `Phase.run_stopped_of_reaches` — a run that stops does so from every state on its way;
* `Phase.meets_of_reaches` — what every step keeps holds in every phase;
* `Phase.Answered` — a machine follows another one step by step; then both give the same answers
  (`Phase.Answered.stopped_iff`);
* `Phase.Lockstep` — two machines make every step together; then they need the same fuel too;
* `advance` — the step function of the machine in this form.
-/

namespace BlockMachine

open StateTransition

/-- A run that is going on in some state, or how it has stopped. -/
inductive Phase (σ : Type)
  | running (state : σ)
  | stopped (result : Result) (stack : Stack)
  deriving Repr

namespace Phase

variable {σ τ : Type}

/-- The phase behind a phase.  There is none when the run has stopped, or when the step function
has nothing to say about the state: the run is stuck there. -/
def next (step : σ → Option (Phase σ)) : Phase σ → Option (Phase σ)
  | running s => step s
  | stopped _ _ => none

@[simp] theorem next_running (step : σ → Option (Phase σ)) (s : σ) :
    next step (running s) = step s := rfl

@[simp] theorem next_stopped (step : σ → Option (Phase σ)) (result : Result) (stack : Stack) :
    next step (stopped result stack) = none := rfl

/-- Runs until the run stops, at most `fuel` steps.  A stuck run does not stop. -/
def run (step : σ → Option (Phase σ)) : (fuel : Nat) → σ → Outcome
  | 0, _ => .outOfFuel
  | fuel + 1, s =>
    match step s with
    | some (running s) => run step fuel s
    | some (stopped result stack) => .stopped result stack
    | none => .outOfFuel

/-! ## Fuel and reachability -/

theorem eq_of_reaches_stopped {step : σ → Option (Phase σ)} {result : Result} {stack : Stack}
    {ph : Phase σ} (h : Reaches (next step) (stopped result stack) ph) :
    ph = stopped result stack := by
  cases h.cases_head with
  | inl heq => exact heq.symm
  | inr hstep =>
    obtain ⟨_, hnext, _⟩ := hstep
    cases hnext

theorem reaches_of_run {step : σ → Option (Phase σ)} {result : Result} {stack : Stack} :
    ∀ {fuel : Nat} {s : σ}, run step fuel s = .stopped result stack →
      Reaches (next step) (running s) (stopped result stack)
  | 0, _, h => by cases h
  | fuel + 1, s, h => by
    rw [run] at h
    cases hs : step s with
    | none => rw [hs] at h; cases h
    | some ph =>
      rw [hs] at h
      cases ph with
      | running s' => exact (reaches_of_run h).head hs
      | stopped _ _ => cases h; exact .single hs

theorem run_of_reaches {step : σ → Option (Phase σ)} {result : Result} {stack : Stack} {s : σ}
    (h : Reaches (next step) (running s) (stopped result stack)) :
    ∃ fuel, run step fuel s = .stopped result stack := by
  -- The induction goes from the end of the run to its start, and needs a start that is running.
  suffices general : ∀ ph, Reaches (next step) ph (stopped result stack) →
      ∀ s, ph = running s → ∃ fuel, run step fuel s = .stopped result stack from
    general _ h s rfl
  intro ph hph
  induction hph using Relation.ReflTransGen.head_induction_on with
  | refl => intro s hs; cases hs
  | @head ph mid hstep hrest ih =>
    rintro s rfl
    cases mid with
    | running s' =>
      obtain ⟨fuel, hfuel⟩ := ih s' rfl
      refine ⟨fuel + 1, ?_⟩
      rw [run, show step s = some (running s') from hstep]
      exact hfuel
    | stopped result' stack' =>
      cases eq_of_reaches_stopped hrest
      refine ⟨1, ?_⟩
      rw [run, show step s = some (stopped result stack) from hstep]

theorem run_stopped_iff {step : σ → Option (Phase σ)} {result : Result} {stack : Stack} {s : σ} :
    (∃ fuel, run step fuel s = .stopped result stack) ↔
      Reaches (next step) (running s) (stopped result stack) :=
  ⟨fun ⟨_, h⟩ => reaches_of_run h, run_of_reaches⟩

/-- A run stops in one way only. -/
theorem stopped_unique {step : σ → Option (Phase σ)} {s : σ} {result result' : Result}
    {stack stack' : Stack} (h : Reaches (next step) (running s) (stopped result stack))
    (h' : Reaches (next step) (running s) (stopped result' stack')) :
    (result, stack) = (result', stack') := by
  cases reaches_total h h' with
  | inl hstay => cases eq_of_reaches_stopped hstay; rfl
  | inr hstay => cases eq_of_reaches_stopped hstay; rfl

/-- A run that stops does so from every state on its way, with no more fuel. -/
theorem run_stopped_of_reaches {step : σ → Option (Phase σ)} {s s' : σ}
    (h : Reaches (next step) (running s) (running s')) {fuel : Nat} {result : Result}
    {stack : Stack} (hrun : run step fuel s = .stopped result stack) :
    ∃ rest ≤ fuel, run step rest s' = .stopped result stack := by
  generalize hstart : running s = ph at h
  induction h using Relation.ReflTransGen.head_induction_on generalizing s fuel with
  | refl =>
    cases hstart
    exact ⟨fuel, Nat.le_refl fuel, hrun⟩
  | @head _ mid hstep hrest ih =>
    subst hstart
    cases fuel with
    | zero => cases hrun
    | succ fuel =>
      rw [run, show step s = some mid from hstep] at hrun
      cases mid with
      | running t =>
        obtain ⟨rest, hle, hstop⟩ := ih hrun rfl
        exact ⟨rest, Nat.le_succ_of_le hle, hstop⟩
      | stopped _ _ => cases eq_of_reaches_stopped hrest

def Meets (state : σ → Prop) (answer : Result → Stack → Prop) : Phase σ → Prop
  | running s => state s
  | stopped result stack => answer result stack

theorem meets_of_reaches {step : σ → Option (Phase σ)} {state : σ → Prop}
    {answer : Result → Stack → Prop}
    (keep : ∀ s, state s → ∀ ph, step s = some ph → ph.Meets state answer)
    {s : σ} (start : state s) {ph : Phase σ} (h : Reaches (next step) (running s) ph) :
    ph.Meets state answer := by
  induction h with
  | refl => exact start
  | @tail mid ph _ hstep ih =>
    cases mid with
    | running s => exact keep s ih ph hstep
    -- Nothing comes behind a stopped phase.
    | stopped _ _ => cases hstep

/-! ## Two machines -/

/-- Both runs are going on in related states, or both have stopped alike. -/
inductive Related (R : σ → τ → Prop) : Phase σ → Phase τ → Prop
  | running {s : σ} {t : τ} (h : R s t) : Related R (running s) (running t)
  | stopped {result : Result} {stack : Stack} :
      Related R (stopped result stack) (stopped result stack)

variable {f : σ → Option (Phase σ)} {g : τ → Option (Phase τ)} {R : σ → τ → Prop}

/-- Every step of the one machine is answered by one or more steps of the other. -/
def Answered (f : σ → Option (Phase σ)) (g : τ → Option (Phase τ)) (R : σ → τ → Prop) : Prop :=
  ∀ s t, R s t → ∃ ph ph', f s = some ph ∧ Related R ph ph' ∧ Reaches₁ (next g) (running t) ph'

theorem Answered.respects (h : Answered f g R) : Respects (next f) (next g) (Related R) := by
  intro ph ph' hrel
  cases hrel with
  | running hst =>
    obtain ⟨ph, ph', hf, hrel, hg⟩ := h _ _ hst
    rw [next_running, hf]
    exact ⟨ph', hrel, hg⟩
  | stopped => rfl

theorem Answered.stopped_iff (h : Answered f g R) {s : σ} {t : τ} (hst : R s t) {result : Result}
    {stack : Stack} :
    Reaches (next f) (running s) (stopped result stack) ↔
      Reaches (next g) (running t) (stopped result stack) := by
  constructor
  · intro hreach
    obtain ⟨ph, hrel, hreach⟩ := tr_reaches h.respects (.running hst) hreach
    cases hrel
    exact hreach
  · intro hreach
    -- The first machine is only known to catch up with a later phase of the second one, but
    -- behind a stopped phase there is no other.
    obtain ⟨ph, ph', hstay, hrel, hreach⟩ := tr_reaches_rev h.respects (.running hst) hreach
    cases eq_of_reaches_stopped hstay
    cases hrel
    exact hreach

/-- The other machine is never stuck. -/
theorem Answered.progress (h : Answered f g R) {s : σ} {t t' : τ} (hst : R s t)
    (hreach : Reaches (next g) (running t) (running t')) : ∃ ph, g t' = some ph := by
  obtain ⟨ph, ph', hrest, hrel, _⟩ := tr_reaches_rev h.respects (.running hst) hreach
  cases hrest.cases_head with
  | inl heq =>
    -- The first machine stands at a state related to `t'`, and the answer to its step starts there.
    cases heq
    cases hrel with
    | running hst' =>
      obtain ⟨_, _, _, _, hsteps⟩ := h _ _ hst'
      obtain ⟨ph, hstep, _⟩ := Relation.TransGen.head'_iff.1 hsteps
      exact ⟨ph, hstep⟩
  | inr hstep =>
    obtain ⟨ph, hstep, _⟩ := hstep
    exact ⟨ph, hstep⟩

/-- The machines make their steps together, and are stuck together. -/
def Lockstep (f : σ → Option (Phase σ)) (g : τ → Option (Phase τ)) (R : σ → τ → Prop) : Prop :=
  ∀ s t, R s t → Option.Rel (Related R) (f s) (g t)

theorem Lockstep.run_eq (h : Lockstep f g R) {s : σ} {t : τ} (hst : R s t) (fuel : Nat) :
    run f fuel s = run g fuel t := by
  induction fuel generalizing s t with
  | zero => rfl
  | succ fuel ih =>
    rw [run, run]
    have hstep := h s t hst
    generalize f s = next, g t = next' at hstep ⊢
    cases hstep with
    | none => rfl
    | some hrel =>
      cases hrel with
      | running hst' => exact ih hst'
      | stopped => rfl

end Phase

/-! ## The machine -/

def Transition.phase : Transition → Phase State
  | next s => .running s
  | stop result stack => .stopped result stack

/-- One step of the machine, which is never stuck. -/
def advance (p : Program) (maxCallDepth : Nat) (s : State) : Option (Phase State) :=
  some (step p maxCallDepth s).phase

theorem run_eq_phaseRun (p : Program) (maxCallDepth fuel : Nat) (s : State) :
    s.run p maxCallDepth fuel = Phase.run (advance p maxCallDepth) fuel s := by
  induction fuel generalizing s with
  | zero => rfl
  | succ fuel ih =>
    rw [State.run, Phase.run, advance]
    cases step p maxCallDepth s with
    | next s' => exact ih s'
    | stop result stack => rfl

theorem run_stopped_iff_reaches {p : Program} {maxCallDepth : Nat} {s : State} {result : Result}
    {stack : Stack} :
    (∃ fuel, s.run p maxCallDepth fuel = .stopped result stack) ↔
      Reaches (Phase.next (advance p maxCallDepth)) (.running s) (.stopped result stack) := by
  simp only [run_eq_phaseRun]
  exact Phase.run_stopped_iff

theorem State.run_stopped_of_reaches {p : Program} {maxCallDepth fuel : Nat} {s s' : State}
    {result : Result} {stack : Stack}
    (h : Reaches (Phase.next (advance p maxCallDepth)) (.running s) (.running s'))
    (hrun : s.run p maxCallDepth fuel = .stopped result stack) :
    ∃ rest ≤ fuel, s'.run p maxCallDepth rest = .stopped result stack := by
  simp only [run_eq_phaseRun] at hrun ⊢
  exact Phase.run_stopped_of_reaches h hrun

end BlockMachine
