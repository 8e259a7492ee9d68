import BlockMachine.Proofs.Serving
import BlockMachine.Proofs.StackFaults

/-! # The operand stack is a bounded list

A stack answers requests one after the other.  A plain list of values, the top one first, can answer
them as well: whether a request is granted depends on the list and on the capacity alone, and what a
granted request does to the list can be said without the stack.

* `StackRequest`, `StackReply` — what a stack is asked for, and what it gives;
* `StackSession.serve` — one request, `StackSession.after`, `StackSession.answers` — many of them;
* `StackRequest.answer`, `StackRequest.effect` — the same for a plain list, and `plainAfter`,
  `plainAnswers` for many requests;
* `StackSession.Refines` — a session that has come to the values of a list, which one request keeps
  (`Refines.serve`) and so does a session (`Refines.after`).
-/

namespace BlockMachine

/-! ## Requests -/

inductive StackRequest
  | push (v : Value)
  | pop
  | popInteger (user : String)
  | popMany (count : Nat)
  | peek
  | setTop (v : Value)
  | clear
  /-- whether changes are to be written to the log from now on -/
  | trace (on : Bool)
  deriving DecidableEq, Repr

inductive StackReply
  | done
  | value (v : Value)
  | integer (n : Int32)
  deriving DecidableEq, Repr

def StackRequest.operation : StackRequest → StackM StackReply
  | push v => do
    Stack.push v
    return .done
  | pop => return .value (← Stack.pop)
  | popInteger user => return .integer (← Stack.popInteger user)
  | popMany count => do
    Stack.popMany count
    return .done
  | peek => return .value (← Stack.peek)
  | setTop v => return .value (← Stack.setTop v)
  | clear => do
    modify Stack.clear
    return .done
  | trace _ => return .done

/-- A stack between two requests, and whether its changes are written to the log. -/
@[ext]
structure StackSession where
  stack : Stack
  tracing : Bool
  deriving DecidableEq, Repr

namespace StackSession

def start (capacity : Nat) (tracing : Bool) : StackSession :=
  ⟨.empty capacity, tracing⟩

def serve (s : StackSession) (request : StackRequest) : Except Fault StackReply × StackSession :=
  let (answer, stack) := request.operation.run s.stack
  match request with
  | .trace on => (answer, ⟨stack, on⟩)
  | _ => (answer, ⟨stack, s.tracing⟩)

def after (s : StackSession) (requests : List StackRequest) : StackSession :=
  Serving.after serve s requests

def answers (s : StackSession) (requests : List StackRequest) : List (Except Fault StackReply) :=
  Serving.answers serve s requests

end StackSession

/-! ## Plain lists -/

namespace StackRequest

/-- The answer of a plain list that may hold up to `capacity` values. -/
def answer (capacity : Nat) (values : List Value) : StackRequest → Except Fault StackReply
  | push _ =>
    if values.length < capacity then .ok .done else .error (.stackOverflow capacity)
  | pop | peek | setTop _ =>
    match values with
    | [] => .error .stackUnderflow
    | v :: _ => .ok (.value v)
  | popInteger user =>
    match values with
    | [] => .error .stackUnderflow
    | .integer n :: _ => .ok (.integer n)
    | .label _ :: _ => .error (.labelOperand user)
  | popMany count =>
    if count ≤ values.length then .ok .done
    else .error (.popCount (signedWord count) values.length)
  | clear | trace _ => .ok .done

/-- What is done to a plain list by a request that is granted. -/
def change (values : List Value) : StackRequest → List Value
  | push v => v :: values
  | pop | popInteger _ => values.tail
  | popMany count => values.drop count
  | peek | trace _ => values
  | setTop v => v :: values.tail
  | clear => []

/-- What is done to a plain list by a request, given the answer.  A request that is refused does
nothing, but for the label that was met where an integer is wanted. -/
def effect (request : StackRequest) (values : List Value) : Except Fault StackReply → List Value
  | .ok _ => request.change values
  | .error (.labelOperand _) => values.tail
  | .error _ => values

def servePlain (capacity : Nat) (values : List Value) (request : StackRequest) :
    Except Fault StackReply × List Value :=
  (request.answer capacity values, request.effect values (request.answer capacity values))

end StackRequest

def plainAfter (capacity : Nat) (values : List Value) (requests : List StackRequest) : List Value :=
  Serving.after (StackRequest.servePlain capacity) values requests

def plainAnswers (capacity : Nat) (values : List Value) (requests : List StackRequest) :
    List (Except Fault StackReply) :=
  Serving.answers (StackRequest.servePlain capacity) values requests

/-! ## One request -/

namespace Stack

variable (s : Stack)

theorem topFirst_push (v : Value) :
    ({ s with values := s.values.push v } : Stack).topFirst = v :: s.topFirst := by
  simp [topFirst]

theorem topFirst_setTop (v : Value) :
    ({ s with values := s.values.pop.push v } : Stack).topFirst = v :: s.topFirst.tail := by
  simp [topFirst]

theorem eq_of_topFirst {s t : Stack} (hcapacity : s.capacity = t.capacity)
    (htop : s.topFirst = t.topFirst) : s = t := by
  obtain ⟨_, ⟨values⟩⟩ := s
  obtain ⟨_, ⟨others⟩⟩ := t
  simpa [topFirst] using And.intro hcapacity htop

end Stack

namespace StackSession

variable (s : StackSession)

theorem serve_fst (request : StackRequest) :
    (s.serve request).1 = (request.operation.run s.stack).1 := by
  cases request <;> rfl

theorem serve_stack (request : StackRequest) :
    (s.serve request).2.stack = (request.operation.run s.stack).2 := by
  cases request <;> rfl

end StackSession

open StackRequest in
/-- The stack answers what a plain list of its values answers, and holds the same values then. -/
theorem run_operation (s : Stack) (request : StackRequest) :
    (request.operation.run s).1 = request.answer s.capacity s.topFirst ∧
      (request.operation.run s).2.capacity = s.capacity ∧
      (request.operation.run s).2.topFirst =
        request.effect s.topFirst (request.answer s.capacity s.topFirst) := by
  cases request with
  | push v =>
    rw [StackRequest.operation, StackM.run_bind, Stack.run_push]
    by_cases hroom : s.depth < s.capacity
    · simp [answer, effect, change, hroom, Stack.topFirst_push]
    · simp [answer, effect, hroom]
  | pop =>
    rw [StackRequest.operation, StackM.run_bind, Stack.run_pop_eq]
    cases htop : s.topFirst with
    | nil => simp [answer, effect, htop]
    | cons v rest => simp [answer, effect, change, htop]
  | popInteger user =>
    rw [StackRequest.operation, StackM.run_bind, Stack.run_popInteger_eq]
    cases htop : s.topFirst with
    | nil => simp [answer, effect, htop]
    | cons v rest =>
      cases v with
      | integer n => simp [answer, effect, change, htop]
      | label name => simp [answer, effect, htop]
  | popMany count =>
    have hleft : (⟨s.capacity, s.values.take (s.depth - count)⟩ : Stack) = s.dropTop count := rfl
    rw [StackRequest.operation, StackM.run_bind, Stack.run_popMany]
    by_cases hcount : count ≤ s.depth
    · simp [answer, effect, change, hcount, hleft]
    · simp [answer, effect, hcount]
  | peek =>
    rw [StackRequest.operation, StackM.run_bind, Stack.run_peek, Stack.back?_eq_head?]
    cases htop : s.topFirst with
    | nil => simp [answer, effect, htop]
    | cons v rest => simp [answer, effect, change, htop]
  | setTop v =>
    rw [StackRequest.operation, StackM.run_bind, Stack.run_setTop, Stack.back?_eq_head?]
    cases htop : s.topFirst with
    | nil => simp [answer, effect, htop]
    | cons old rest => simp [answer, effect, change, Stack.topFirst_setTop, htop]
  | clear => exact ⟨rfl, rfl, rfl⟩
  | trace on => exact ⟨rfl, rfl, rfl⟩

namespace StackRequest

variable {capacity : Nat} {values : List Value} {request : StackRequest}

/-- A list that is not over the capacity does not get over it. -/
theorem length_effect_le (h : values.length ≤ capacity) (request : StackRequest) :
    (request.effect values (request.answer capacity values)).length ≤ capacity := by
  cases request with
  | push v =>
    by_cases hroom : values.length < capacity
    · simp only [answer, hroom, if_true, effect, change]
      exact hroom
    · simpa only [answer, hroom, if_false, effect] using h
  | pop =>
    cases values with
    | nil => exact h
    | cons v rest => exact Nat.le_of_succ_le h
  | popInteger user =>
    cases values with
    | nil => exact h
    | cons v rest =>
      cases v with
      | integer n => exact Nat.le_of_succ_le h
      | label name => exact Nat.le_of_succ_le h
  | popMany count =>
    by_cases hcount : count ≤ values.length
    · simp only [answer, hcount, if_true, effect, change, List.length_drop]
      omega
    · simpa only [answer, hcount, if_false, effect] using h
  | peek | setTop v =>
    cases values with
    | nil => exact h
    | cons v rest => exact h
  | clear => exact Nat.zero_le capacity
  | trace on => exact h

/-- Only a request for an integer complains about a label, and the label is on top. -/
theorem answer_labelOperand {user : String}
    (h : request.answer capacity values = .error (.labelOperand user)) :
    request = .popInteger user ∧ ∃ name rest, values = .label name :: rest := by
  cases request with
  | push v => simp only [answer] at h; split at h <;> cases h
  | popMany count => simp only [answer] at h; split at h <;> cases h
  | pop | peek | setTop v => cases values <;> cases h
  | popInteger wanted =>
    cases values with
    | nil => cases h
    | cons v rest =>
      cases v with
      | integer n => cases h
      | label name =>
        cases h
        exact ⟨rfl, name, rest, rfl⟩
  | clear => cases h
  | trace on => cases h

theorem effect_error {fault : Fault} (h : ∀ user, fault ≠ .labelOperand user) :
    request.effect values (.error fault) = values := by
  cases fault with
  | labelOperand user => exact absurd rfl (h user)
  | _ => rfl

end StackRequest

/-- As many values are taken one by one as there are, from the top. -/
theorem plainAfter_pops (capacity : Nat) {values : List Value} {count : Nat}
    (h : count ≤ values.length) :
    plainAfter capacity values (List.replicate count .pop) = values.drop count ∧
      plainAnswers capacity values (List.replicate count .pop) =
        (values.take count).map fun v => .ok (.value v) := by
  induction count generalizing values with
  | zero => exact ⟨rfl, rfl⟩
  | succ count ih =>
    cases values with
    | nil => exact absurd h (Nat.not_succ_le_zero count)
    | cons v rest =>
      obtain ⟨hafter, hanswers⟩ := ih (Nat.le_of_succ_le_succ h)
      exact ⟨hafter, congrArg (_ :: ·) hanswers⟩

theorem bmod_of_even {n size : Nat} (heven : size % 2 = 0) (h : n < size) :
    Int.bmod n size = if 2 * n < size then (n : Int) else (n : Int) - size := by
  have hmod : (n : Int) % size = n := by
    rw [← Int.natCast_emod, Nat.mod_eq_of_lt h]
  rw [Int.bmod_def, hmod]
  split <;> split <;> omega

/-- The upper half of the words stands for the negative numbers. -/
theorem signedWord_eq {n : Nat} (h : n < UInt64.size) :
    signedWord n = if 2 * n < UInt64.size then (n : Int) else (n : Int) - UInt64.size :=
  bmod_of_even (by decide) h

namespace StackSession

variable {s : StackSession} {capacity : Nat} {values : List Value}

/-- The session has come to the values of a plain list, within its capacity. -/
structure Refines (s : StackSession) (capacity : Nat) (values : List Value) : Prop where
  capacity_eq : s.stack.capacity = capacity
  topFirst_eq : s.stack.topFirst = values
  length_le : values.length ≤ capacity

theorem refines_start (capacity : Nat) (tracing : Bool) :
    (start capacity tracing).Refines capacity [] :=
  ⟨rfl, rfl, Nat.zero_le capacity⟩

theorem Refines.depth_eq (h : s.Refines capacity values) : s.stack.depth = values.length := by
  rw [← Stack.length_topFirst, h.topFirst_eq]

theorem Refines.answer_eq (h : s.Refines capacity values) (request : StackRequest) :
    (s.serve request).1 = request.answer capacity values := by
  rw [serve_fst, (run_operation s.stack request).1, h.capacity_eq, h.topFirst_eq]

theorem Refines.serve (h : s.Refines capacity values) (request : StackRequest) :
    (s.serve request).2.Refines capacity
      (request.effect values (request.answer capacity values)) := by
  obtain ⟨-, hcapacity, htop⟩ := run_operation s.stack request
  refine ⟨?_, ?_, request.length_effect_le h.length_le⟩
  · rw [serve_stack, hcapacity, h.capacity_eq]
  · rw [serve_stack, htop, h.capacity_eq, h.topFirst_eq]

theorem Refines.stack_eq {t : StackSession} (hs : s.Refines capacity values)
    (ht : t.Refines capacity values) : s.stack = t.stack :=
  Stack.eq_of_topFirst (hs.capacity_eq.trans ht.capacity_eq.symm)
    (hs.topFirst_eq.trans ht.topFirst_eq.symm)

/-- A request that is refused leaves everything as it is, but for a label that is met. -/
theorem Refines.serve_error (h : s.Refines capacity values) {request : StackRequest} {fault : Fault}
    (hrefused : (s.serve request).1 = .error fault) :
    (s.serve request).2 = s ∨ ∃ user name, request = .popInteger user ∧
      s.stack.topFirst = .label name :: (s.serve request).2.stack.topFirst := by
  have hanswer := h.answer_eq request
  rw [hrefused] at hanswer
  have hserved := h.serve request
  rw [← hanswer] at hserved
  -- Of all faults only the one about a label comes with an effect on the list.
  by_cases hlabel : ∃ user, fault = .labelOperand user
  · obtain ⟨user, rfl⟩ := hlabel
    obtain ⟨rfl, name, rest, rfl⟩ := StackRequest.answer_labelOperand hanswer.symm
    refine .inr ⟨user, name, rfl, ?_⟩
    rw [h.topFirst_eq, hserved.topFirst_eq]
    rfl
  · rw [StackRequest.effect_error fun user heq => hlabel ⟨user, heq⟩] at hserved
    -- What is written to the log is changed by a request that is always granted.
    have htracing : (s.serve request).2.tracing = s.tracing := by
      cases request with
      | trace on => cases hrefused
      | _ => rfl
    exact .inl (StackSession.ext (hserved.stack_eq h) htracing)

/-! ## Many requests -/

theorem Refines.after (h : s.Refines capacity values) (requests : List StackRequest) :
    (s.after requests).Refines capacity (plainAfter capacity values requests) ∧
      s.answers requests = plainAnswers capacity values requests := by
  let related (s : StackSession) (values : List Value) := s.Refines capacity values
  have hserve (s : StackSession) (values : List Value) (request : StackRequest)
      (h : related s values) :
      related (s.serve request).2 (request.servePlain capacity values).2 := h.serve request
  refine ⟨?_, ?_⟩
  · exact Serving.after_related (R := fun _ => related) (fun _ => hserve) h requests
  · exact Serving.answers_eq (fun _ _ request h => h.answer_eq request) hserve h requests

theorem Refines.popMany_granted (h : s.Refines capacity values) {count : Nat}
    (hcount : count ≤ values.length) :
    (s.serve (.popMany count)).1 = .ok .done ∧
      s.answers (List.replicate count .pop) = (values.take count).map (fun v => .ok (.value v)) ∧
      (s.serve (.popMany count)).2.stack = (s.after (List.replicate count .pop)).stack := by
  obtain ⟨hpopped, hgiven⟩ := h.after (List.replicate count .pop)
  obtain ⟨hafter, htaken⟩ := plainAfter_pops capacity hcount
  have hmany := h.serve (.popMany count)
  have hgranted := h.answer_eq (.popMany count)
  rw [StackRequest.answer, if_pos hcount] at hmany hgranted
  rw [hafter] at hpopped
  exact ⟨hgranted, hgiven.trans htaken, hmany.stack_eq hpopped⟩

theorem Refines.popMany_refused (h : s.Refines capacity values) {count : Nat}
    (hcount : values.length < count) (hword : count < UInt64.size) :
    (s.serve (.popMany count)).1 =
        .error (.popCount (if 2 * count < UInt64.size then (count : Int) else count - UInt64.size)
          values.length) ∧
      (s.serve (.popMany count)).2 = s := by
  have hrefused := h.answer_eq (.popMany count)
  rw [StackRequest.answer, if_neg (Nat.not_le_of_lt hcount), signedWord_eq hword] at hrefused
  refine ⟨hrefused, ?_⟩
  obtain hsame | ⟨user, name, hrequest, -⟩ := h.serve_error hrefused
  · exact hsame
  · cases hrequest

end StackSession

/-! ## Sessions -/

/-- A session goes as with a plain list that holds up to `capacity` values: the answers are those of
the list, and the values are those that are in it.  A refused request changes nothing, except that a
label is gone when an integer was wanted.  Taking `count` values at once is taking one value `count`
times if there are so many, and is refused otherwise; the fault shows `count` as a signed word. -/
theorem stack_session_is_bounded_list (capacity : Nat) (tracing : Bool)
    (requests : List StackRequest) :
    let s := (StackSession.start capacity tracing).after requests
    (s.stack.capacity = capacity ∧ s.stack.depth ≤ capacity) ∧
      ((StackSession.start capacity tracing).answers requests = plainAnswers capacity [] requests ∧
        s.stack.topFirst = plainAfter capacity [] requests) ∧
      (∀ request fault, (s.serve request).1 = .error fault →
        (s.serve request).2 = s ∨ ∃ user name, request = .popInteger user ∧
          s.stack.topFirst = .label name :: (s.serve request).2.stack.topFirst) ∧
      (∀ user name rest, s.stack.topFirst = .label name :: rest →
        (s.serve (.popInteger user)).1 = .error (.labelOperand user) ∧
          (s.serve (.popInteger user)).2.stack.topFirst = rest) ∧
      (∀ count ≤ s.stack.depth,
        (s.serve (.popMany count)).1 = .ok .done ∧
          s.answers (List.replicate count .pop) =
            (s.stack.topFirst.take count).map (fun v => .ok (.value v)) ∧
          (s.serve (.popMany count)).2.stack = (s.after (List.replicate count .pop)).stack) ∧
      ∀ count, s.stack.depth < count → count < UInt64.size →
        (s.serve (.popMany count)).1 =
          .error (.popCount (if 2 * count < UInt64.size then (count : Int) else count - UInt64.size)
            s.stack.depth) ∧
        (s.serve (.popMany count)).2 = s := by
  intro s
  obtain ⟨hs, hanswers⟩ := (StackSession.refines_start capacity tracing).after requests
  have hdepth : s.stack.depth = _ := hs.depth_eq
  have htop : s.stack.topFirst = _ := hs.topFirst_eq
  refine ⟨⟨hs.capacity_eq, hdepth ▸ hs.length_le⟩, ⟨hanswers, htop⟩, ?_, ?_, ?_, ?_⟩
  · intro request fault hrefused
    exact hs.serve_error hrefused
  · intro user name rest hlabel
    have hvalues := htop.symm.trans hlabel
    rw [hs.answer_eq, (hs.serve _).topFirst_eq, hvalues]
    exact ⟨rfl, rfl⟩
  · intro count hcount
    rw [htop]
    exact hs.popMany_granted (hdepth ▸ hcount)
  · intro count hcount hword
    rw [hdepth]
    exact hs.popMany_refused (hdepth ▸ hcount) hword

/-- A full stack with a label on top: the next value, an integer and more values than there are, up
to the largest word, are refused. -/
theorem stack_session_is_bounded_list_full :
    let s := (StackSession.start 2 true).after
      [.push (.integer 7), .push (.label "end"), .push (.integer 1), .trace false]
    s.stack.topFirst = [.label "end", .integer 7] ∧
      ((s.serve (.push (.integer 1))).1 = .error (.stackOverflow 2) ∧
        (s.serve (.push (.integer 1))).2 = s) ∧
      ((s.serve (.popInteger "add")).1 = .error (.labelOperand "add") ∧
        (s.serve (.popInteger "add")).2.stack.topFirst = [.integer 7]) ∧
      (s.serve (.popMany 2)).2.stack = (s.after [.pop, .pop]).stack ∧
      (s.serve (.popMany 18446744073709551615)).1 = .error (.popCount (-1) 2) ∧
      (s.serve (.popMany 18446744073709551615)).2 = s := by
  intro s
  obtain ⟨-, ⟨-, htop⟩, hrefused, hlabel, hmany, hmissing⟩ :=
    stack_session_is_bounded_list 2 true
      [.push (.integer 7), .push (.label "end"), .push (.integer 1), .trace false]
  have hfull : (s.serve (.push (.integer 1))).2 = s := by
    obtain hsame | ⟨user, name, hrequest, -⟩ := hrefused (.push (.integer 1)) (.stackOverflow 2) rfl
    · exact hsame
    · cases hrequest
  obtain ⟨hcount, hsame⟩ := hmissing 18446744073709551615 (by decide) (by decide)
  exact ⟨htop, ⟨rfl, hfull⟩, hlabel "add" "end" [.integer 7] rfl, (hmany 2 (by decide)).2.2, hcount,
    hsame⟩

end BlockMachine
