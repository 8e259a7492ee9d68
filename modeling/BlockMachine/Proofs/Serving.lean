/-! # Requests one after the other

Many things here are asked for one thing after another and answer from what the requests before have
left: a scan, a stack, a reader, a file store.  What they have in common is said for any way of
serving one request.

* `Serving.after`, `Serving.answers` — the state behind requests, and all their answers;
* `Serving.answers_getElem?` — one answer among many;
* `Serving.after_related`, `Serving.answers_eq` — two ways of serving that stay related, request by
  request, and so answer alike;
* `Serving.Along` — a sequence whose requests all have a property when they are served, and
  `Along.rel`, what they do together;
* `Serving.attempt` — serving that may fail to return.
-/

namespace BlockMachine.Serving

variable {σ τ ρ α : Type}

section

variable (serve : σ → ρ → α × σ)

def after (s : σ) : List ρ → σ
  | [] => s
  | request :: requests => after (serve s request).2 requests

def answers (s : σ) : List ρ → List α
  | [] => []
  | request :: requests => (serve s request).1 :: answers (serve s request).2 requests

/-- Every request has a property in the state that it is served in. -/
def Along (P : σ → ρ → Prop) (s : σ) : List ρ → Prop
  | [] => True
  | request :: requests => P s request ∧ Along P (serve s request).2 requests

end

variable {serve : σ → ρ → α × σ} {s : σ} {t : τ} {requests : List ρ}

/-- The answer to a request comes from the state that the requests before it have left. -/
theorem answers_getElem? (s : σ) (before : List ρ) (request : ρ) (behind : List ρ) :
    (answers serve s (before ++ request :: behind))[before.length]? =
      some (serve (after serve s before) request).1 := by
  induction before generalizing s with
  | nil => rfl
  | cons first before ih =>
    rw [List.cons_append, answers, List.length_cons, List.getElem?_cons_succ, ih, after]

/-- States that are related stay so, where the relation may depend on how many requests there have
been. -/
theorem after_related {β : Type} {serve' : τ → ρ → β × τ} {R : Nat → σ → τ → Prop}
    (hserve : ∀ n s t request, R n s t → R (n + 1) (serve s request).2 (serve' t request).2)
    (h : R 0 s t) (requests : List ρ) :
    R requests.length (after serve s requests) (after serve' t requests) := by
  induction requests generalizing R s t with
  | nil => exact h
  | cons request requests ih =>
    -- Behind the first request the count goes on from one.
    exact ih (R := fun n => R (n + 1)) (fun n => hserve (n + 1)) (hserve 0 s t request h)

theorem answers_eq {serve' : τ → ρ → α × τ} {R : σ → τ → Prop}
    (hanswer : ∀ s t request, R s t → (serve s request).1 = (serve' t request).1)
    (hserve : ∀ s t request, R s t → R (serve s request).2 (serve' t request).2)
    (h : R s t) (requests : List ρ) :
    answers serve s requests = answers serve' t requests := by
  induction requests generalizing s t with
  | nil => rfl
  | cons request requests ih =>
    rw [answers, answers, hanswer s t request h, ih (hserve s t request h)]

namespace Along

variable {P Q : σ → ρ → Prop}

/-- What relates the states around every request relates the first state to the last. -/
theorem rel {R : σ → σ → Prop} (hrefl : ∀ s, R s s) (htrans : ∀ {s t u}, R s t → R t u → R s u)
    (hserve : ∀ s request, P s request → R s (serve s request).2) (h : Along serve P s requests) :
    R s (after serve s requests) := by
  induction requests generalizing s with
  | nil => exact hrefl s
  | cons request requests ih => exact htrans (hserve s request h.1) (ih h.2)

/-- A property may be replaced by one that follows from it as long as an invariant holds. -/
theorem imp_of_invariant {I : σ → Prop}
    (hkeep : ∀ s request, I s → P s request → I (serve s request).2)
    (himp : ∀ s request, I s → P s request → Q s request) (hs : I s)
    (h : Along serve P s requests) : Along serve Q s requests := by
  induction requests generalizing s with
  | nil => trivial
  | cons request requests ih =>
    exact ⟨himp s request hs h.1, ih (hkeep s request hs h.1) h.2⟩

end Along

/-- A way of serving that may fail to return, and then never goes on. -/
def attempt (serve : σ → ρ → Option (α × σ)) : Option σ → ρ → Option α × Option σ
  | none, _ => (none, none)
  | some s, request => ((serve s request).map Prod.fst, (serve s request).map Prod.snd)

end BlockMachine.Serving
