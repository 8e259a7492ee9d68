import BlockMachine.Proofs.ReadingGrammar

/-! # Reading with a cursor

A reader can also keep its tokens whole and move an index over them.  Blocks are then read by
recursive descent: one loop goes over the blocks of the program, another one over what a block holds,
and the second is entered again for each nested block.  Nothing in this form says that the loops end,
or that the index stays inside the tokens.  Both follow from what each part of the descent does to
the cursor, and the descent reads what the reader reads.

* `Cursor` — the tokens and the index of the next one;
* `Descent.program`, `Descent.body` — the two loops, in a limited number of rounds;
* `Cursor.ahead` — the cursor after some looks, one token after the other;
* `Descent.Follows` — a part of the descent returns, has looked at the tokens in front of it one by
  one, and has read them as a reading does; `follows_advance` is about one token, and
  `Follows.bind` about two parts in a row;
* `Cursor.readTree_eq` — from a valid cursor the whole descent returns and does what the reader does.
-/

namespace BlockMachine

open Reading

/-- Tokens and the index of the next one.  `looks` are the indices at which the cursor has stood when
a token was taken, the latest first; no answer depends on them. -/
structure Cursor where
  tokens : List Token
  current : Nat
  looks : List Nat
  deriving DecidableEq, Repr

/-- The cursor after a look at the token `t`, which moves it on unless that is the end of the
input. -/
def Cursor.look (c : Cursor) (t : Token) : Cursor :=
  { c with
    current := if t.kind = .eof then c.current else c.current + 1
    looks := c.current :: c.looks }

/-- Reading by recursive descent.  There is no outcome if a token is taken from outside of the tokens,
or if the rounds that a loop may take do not suffice. -/
abbrev Descent := ExceptT ReadError (StateT Cursor Option)

/-- The colon behind a label. -/
def colonOf (label : String) (t : Token) : Except ReadError Unit :=
  match t.kind with
  | .colon => .ok ()
  | _ => .error (reject label .colon t)

/-- The label behind `END`, which has to be that of the block. -/
def endOf (label : String) (t : Token) : Except ReadError Unit :=
  match t.kind with
  | .identifier name =>
    if name = label then .ok () else .error (.mismatchedEnd label name t.position)
  | _ => .error (reject label .endLabel t)

namespace Descent

variable {α β : Type}

/-- The token at the cursor. -/
def advance : Descent Token := fun c =>
  c.tokens[c.current]?.map fun t => (.ok t, c.look t)

/-- The next token, for what it gives. -/
def consume (accept : Token → Except ReadError α) : Descent α := do
  let t ← advance
  match accept t with
  | .ok a => return a
  | .error e => throw e

/-- An instruction whose keyword has been taken. -/
def instruction (m : Mnemonic) (p : Position) (label : String) : Descent Instruction := do
  if m.operand = .nothing then return ⟨m, none, p⟩
  let value ← consume (operandOf m label)
  return ⟨m, some value, p⟩

/-- A block whose label has been taken. -/
def block (body : OpenBlock → Descent CodeBlock) (label : String) (line : Nat) :
    Descent CodeBlock := do
  consume (colonOf label)
  body (.start label line)

/-- What is left of an open block. -/
def body : Nat → OpenBlock → Descent CodeBlock
  | 0, _ => fun _ => none
  | rounds + 1, b => do
    let t ← advance
    match t.kind with
    | .keyword .endBlock => do
      consume (endOf b.label)
      return b.close
    | .keyword m => do
      let i ← instruction m t.position b.label
      body rounds (b.addInstruction i)
    | .identifier label => do
      let nested ← block (body rounds) label t.position.line
      body rounds (b.addBlock nested)
    | _ => throw (reject b.label .item t)

/-- What is left of a program, behind the finished blocks, the latest of them first. -/
def program : Nat → List CodeBlock → Descent (List CodeBlock)
  | 0, _ => fun _ => none
  | rounds + 1, finished => do
    let t ← advance
    match t.kind with
    | .eof => return finished.reverse
    | .identifier label => do
      let b ← block (body rounds) label t.position.line
      program rounds (b :: finished)
    | found => throw (.unexpected .blockLabel found t.position)

theorem run_bind (w : Descent α) (f : α → Descent β) (c : Cursor) :
    (w >>= f).run.run c =
      match w.run.run c with
      | some (.ok a, c) => (f a).run.run c
      | some (.error e, c) => some (.error e, c)
      | none => none := by
  have h : (w >>= f).run.run c =
      (w.run.run c).bind fun x => (ExceptT.bindCont f x.1).run x.2 := rfl
  rw [h]
  cases w.run.run c with
  | none => rfl
  | some x =>
    obtain ⟨result, c⟩ := x
    cases result <;> rfl

end Descent

/-! ## Cursors -/

namespace Cursor

variable {c : Cursor} {n m : Nat}

/-- The index of the first end of the input. -/
def stop (c : Cursor) : Nat :=
  c.tokens.findIdx (·.kind == .eof)

/-- There is an end of the input, and the cursor is not behind it. -/
structure Valid (c : Cursor) : Prop where
  current_le : c.current ≤ c.stop
  stop_lt : c.stop < c.tokens.length

/-- The reader of the tokens in front of the first end of the input, from the cursor on. -/
def reader (c : Cursor) : Reader :=
  ⟨(Reader.ofTokens c.tokens).unread.drop c.current⟩

/-- The cursor after `n` more looks, which stops at the first end of the input. -/
def ahead (c : Cursor) (n : Nat) : Cursor :=
  { c with
    current := min (c.current + n) c.stop
    looks := (List.range' c.current n).reverse ++ c.looks }

@[simp] theorem stop_ahead : (c.ahead n).stop = c.stop :=
  rfl

theorem current_ahead : (c.ahead n).current = min (c.current + n) c.stop :=
  rfl

theorem current_ahead_of_le (h : c.current + n ≤ c.stop) : (c.ahead n).current = c.current + n :=
  Nat.min_eq_left h

theorem Valid.ahead (h : c.Valid) (n : Nat) : (c.ahead n).Valid :=
  ⟨Nat.min_le_right _ _, h.stop_lt⟩

theorem ahead_zero (h : c.Valid) : c.ahead 0 = c := by
  have hcurrent : min c.current c.stop = c.current := Nat.min_eq_left h.current_le
  simp [Cursor.ahead, hcurrent]

theorem ahead_ahead (h : c.current + n ≤ c.stop) : (c.ahead n).ahead m = c.ahead (n + m) := by
  have hcurrent : min (c.current + n) c.stop = c.current + n := Nat.min_eq_left h
  have hlooks : List.range' c.current n ++ List.range' (c.current + n) m =
      List.range' c.current (n + m) := List.range'_append_1
  simp only [Cursor.ahead, stop, ← hlooks, List.reverse_append, List.append_assoc] at hcurrent ⊢
  rw [hcurrent, Nat.add_assoc]

theorem unread_eq (c : Cursor) :
    c.reader.unread = (c.tokens.take c.stop).drop c.current := by
  have hfront : c.tokens.takeWhile (·.kind != .eof) = c.tokens.take c.stop := by
    simp only [List.takeWhile_eq_take_findIdx_not, stop, bne, Bool.not_not]
  rw [reader, Reader.ofTokens, hfront]

theorem unread_eq_nil_iff (h : c.Valid) : c.reader.unread = [] ↔ c.current = c.stop := by
  have hlength : (c.tokens.take c.stop).length = c.stop :=
    List.length_take_of_le (Nat.le_of_lt h.stop_lt)
  rw [unread_eq, List.drop_eq_nil_iff, hlength]
  exact ⟨Nat.le_antisymm h.current_le, Nat.le_of_eq ∘ Eq.symm⟩

/-- The token that a valid cursor meets: the end of the input where it stops, and the next token of
the reader everywhere else. -/
inductive Meets (c : Cursor) (t : Token) : Prop
  | atStop (heof : t.kind = .eof) (hstop : c.current = c.stop)
  | inFront (hkind : t.kind ≠ .eof) (hlt : c.current < c.stop)
      (hunread : c.reader.unread = t :: (c.ahead 1).reader.unread)

theorem Valid.meets (h : c.Valid) : ∃ t, c.tokens[c.current]? = some t ∧ c.Meets t := by
  have hlt : c.current < c.tokens.length := Nat.lt_of_le_of_lt h.current_le h.stop_lt
  refine ⟨c.tokens[c.current], List.getElem?_eq_getElem hlt, ?_⟩
  obtain hat | hbefore := Nat.eq_or_lt_of_le h.current_le
  · have heof : (c.tokens[c.stop].kind == .eof) = true :=
      List.findIdx_getElem (w := h.stop_lt)
    refine .atStop ?_ hat
    simp only [hat, eq_of_beq heof]
  · have hkind : c.tokens[c.current].kind ≠ .eof := by
      have hnot := List.not_of_lt_findIdx hbefore
      simpa using hnot
    have hindex : c.current < (c.tokens.take c.stop).length := by
      rw [List.length_take_of_le (Nat.le_of_lt h.stop_lt)]
      exact hbefore
    refine .inFront hkind hbefore ?_
    rw [unread_eq, unread_eq, List.drop_eq_getElem_cons hindex, List.getElem_take,
      current_ahead_of_le hbefore]
    rfl

theorem Meets.look_eq {t : Token} (h : c.Meets t) : c.look t = c.ahead 1 := by
  have hcurrent : (if t.kind = .eof then c.current else c.current + 1) = (c.ahead 1).current := by
    cases h with
    | atStop heof hstop =>
      rw [if_pos heof, current_ahead, hstop, Nat.min_eq_right (Nat.le_succ _)]
    | inFront hkind hlt _ => rw [if_neg hkind, current_ahead_of_le hlt]
  rw [look, hcurrent]
  rfl

end Cursor

/-! ## Parts of the descent -/

namespace Descent

open Cursor

variable {α β : Type} {r mid : Reading} {next : α → Reading} {c : Cursor} {room : Nat}

/-- Reading on from `r` at the cursor `c` comes to its result with the last of `n` looks.  At most
the last one is at the end of the input. -/
structure Stops (c : Cursor) (r : Reading) (result : Except ReadError (List CodeBlock)) (n : Nat) :
    Prop where
  pos : 0 < n
  le : c.current + n ≤ c.stop + 1
  run_eq : r.run c.reader.unread = (result, (c.ahead n).reader.unread)

/-- How a part of the descent ends that starts at `c`, behind tokens that have been read up to `r`:
with what leads to the next reading, or with the error that reading stops with. -/
inductive Ends (c : Cursor) (r : Reading) (next : α → Reading) :
    Option (Except ReadError α × Cursor) → Prop
  | ok {a : α} {n : Nat} (hn : c.current + n ≤ c.stop)
      (hrun : r.run c.reader.unread = (next a).run (c.ahead n).reader.unread) :
      Ends c r next (some (.ok a, c.ahead n))
  | error {e : ReadError} {n : Nat} (h : Stops c r (.error e) n) :
      Ends c r next (some (.error e, c.ahead n))

/-- From every valid cursor with at most `room` tokens in front of the end of the input, a part of
the descent returns, and it has read what leads from `r` to the next reading. -/
def Follows (room : Nat) (w : Descent α) (r : Reading) (next : α → Reading) : Prop :=
  ∀ c : Cursor, c.Valid → c.stop ≤ c.current + room → Ends c r next (w.run.run c)

section Behind

variable {n : Nat} (hn : c.current + n ≤ c.stop)
  (hrun : r.run c.reader.unread = mid.run (c.ahead n).reader.unread)

include hn hrun

theorem Stops.behind {result : Except ReadError (List CodeBlock)} {m : Nat}
    (h : Stops (c.ahead n) mid result m) : Stops c r result (n + m) := by
  obtain ⟨hpos, hle, hstops⟩ := h
  rw [stop_ahead, current_ahead_of_le hn] at hle
  rw [ahead_ahead hn] at hstops
  exact ⟨by omega, by omega, hrun.trans hstops⟩

theorem Ends.behind {x : Option (Except ReadError α × Cursor)} (h : Ends (c.ahead n) mid next x) :
    Ends c r next x := by
  cases h with
  | ok hn' hrun' =>
    rw [stop_ahead, current_ahead_of_le hn] at hn'
    rw [ahead_ahead hn] at hrun' ⊢
    exact .ok (by omega) (hrun.trans hrun')
  | error h =>
    rw [ahead_ahead hn]
    exact .error (h.behind hn hrun)

end Behind

theorem follows_pure {a : α} (h : r = next a) : Follows room (pure a) r next := by
  intro c hc _
  have hsame := ahead_zero hc
  have hends : Ends c r next (some (.ok a, c.ahead 0)) := .ok hc.current_le (by rw [hsame, h])
  rwa [hsame] at hends

theorem Follows.bind {w : Descent α} {f : α → Descent β} {next' : β → Reading}
    (hw : Follows room w r next) (hf : ∀ a, Follows room (f a) (next a) next') :
    Follows room (w >>= f) r next' := by
  intro c hc hroom
  rw [run_bind]
  have hends := hw c hc hroom
  generalize w.run.run c = outcome at hends ⊢
  cases hends with
  | @ok a n hn hrun =>
    have hrest : c.stop ≤ (c.ahead n).current + room := by
      rw [current_ahead_of_le hn]
      omega
    exact (hf a (c.ahead n) (hc.ahead n) hrest).behind hn hrun
  | error h => exact .error h

/-- Taking a token is one look, wherever the cursor stands. -/
theorem run_advance (hc : c.Valid) :
    ∃ t, advance.run.run c = some (.ok t, c.ahead 1) ∧ c.Meets t := by
  obtain ⟨t, ht, hmeets⟩ := hc.meets
  have hrun : advance.run.run c = c.tokens[c.current]?.map fun t => (.ok t, c.look t) := rfl
  refine ⟨t, ?_, hmeets⟩
  rw [hrun, ht, Option.map_some, hmeets.look_eq]

/-- At the end of the input one look is enough to tell. -/
theorem stops_at_end (hc : c.Valid) (hstop : c.current = c.stop) : Stops c r r.finish 1 := by
  have hstays : (c.ahead 1).current = (c.ahead 1).stop := by
    rw [current_ahead, hstop]
    exact Nat.min_eq_right (Nat.le_succ _)
  refine ⟨Nat.one_pos, Nat.le_of_eq (by rw [hstop]), ?_⟩
  rw [(unread_eq_nil_iff hc).2 hstop, (unread_eq_nil_iff (hc.ahead 1)).2 hstays, run]

/-- A part that starts with a token: it fails at the end of the input as the reading does, and goes
on behind any other token as the reading does.  There is less room behind that one. -/
theorem follows_advance {f : Token → Descent α}
    (hend : ∀ t, t.kind = .eof → ∃ e, f t = throw e ∧ r.finish = .error e)
    (hfeed : ∀ t, t.kind ≠ .eof →
      (∃ e, f t = throw e ∧ r.feed t = .error e) ∨
        ∃ mid, r.feed t = .ok mid ∧ ∀ room' < room, Follows room' (f t) mid next) :
    Follows room (advance >>= f) r next := by
  intro c hc hroom
  obtain ⟨t, hadvance, hmeets⟩ := run_advance hc
  have hstart : (advance >>= f).run.run c = (f t).run.run (c.ahead 1) := by
    rw [run_bind, hadvance]
  rw [hstart]
  cases hmeets with
  | atStop heof hstop =>
    obtain ⟨e, hthrow, hfinish⟩ := hend t heof
    rw [hthrow]
    exact .error (hfinish ▸ stops_at_end hc hstop)
  | inFront hkind hlt hunread =>
    obtain ⟨e, hthrow, he⟩ | ⟨mid, hmid, hfollows⟩ := hfeed t hkind
    · rw [hthrow]
      exact .error ⟨Nat.one_pos, by omega, by rw [hunread, run, he]⟩
    · have hrest : c.stop ≤ (c.ahead 1).current + (room - 1) := by
        rw [current_ahead_of_le hlt]
        omega
      refine (hfollows (room - 1) (by omega) (c.ahead 1) (hc.ahead 1) hrest).behind hlt ?_
      rw [hunread, run, hmid]

theorem follows_consume {accept : Token → Except ReadError α}
    (hend : ∀ t, t.kind = .eof → ∃ e, accept t = .error e ∧ r.finish = .error e)
    (hfeed : ∀ t, t.kind ≠ .eof → r.feed t = (accept t).map next) :
    Follows room (consume accept) r next := by
  refine follows_advance ?_ ?_
  · intro t ht
    obtain ⟨e, haccept, hfinish⟩ := hend t ht
    exact ⟨e, by rw [haccept], hfinish⟩
  · intro t ht
    have hnext := hfeed t ht
    cases haccept : accept t with
    | error e =>
      rw [haccept] at hnext
      exact .inl ⟨e, rfl, hnext⟩
    | ok a =>
      rw [haccept] at hnext
      exact .inr ⟨next a, hnext, fun _ _ => follows_pure rfl⟩

/-! ## The grammar -/

theorem reject_of_eof {t : Token} (ht : t.kind = .eof) (label : String) (expected : Expected) :
    reject label expected t = .neverClosed label := by
  rw [reject, ht]

theorem operandOf_of_eof {t : Token} (ht : t.kind = .eof) (m : Mnemonic) (label : String) :
    operandOf m label t = .error (.neverClosed label) := by
  rw [operandOf, ht]
  cases m.operand <;> simp only [reject_of_eof ht]

variable {rounds : Nat}

theorem follows_colon (label : String) (line : Nat) (around : Around) :
    Follows room (consume (colonOf label)) (.labelled label line around)
      fun _ => .inside (.start label line) around := by
  refine follows_consume ?_ ?_
  · intro t ht
    exact ⟨.neverClosed label, by rw [colonOf, ht, reject_of_eof ht], rfl⟩
  · intro t ht
    simp only [feed, colonOf]
    cases t.kind <;> rfl

theorem follows_end (b : OpenBlock) (around : Around) :
    Follows room (consume (endOf b.label)) (.closing b around)
      fun _ => (around.add b.close).host := by
  refine follows_consume ?_ ?_
  · intro t ht
    exact ⟨.neverClosed b.label, by rw [endOf, ht, reject_of_eof ht], rfl⟩
  · intro t ht
    simp only [feed, endOf, Around.close_eq]
    cases t.kind with
    | identifier name => by_cases hname : name = b.label <;> simp [hname, Except.map]
    | number _ | keyword _ | colon | eof => rfl

theorem follows_operand (m : Mnemonic) (p : Position) (b : OpenBlock) (around : Around) :
    Follows room (consume (operandOf m b.label)) (.operand m p b around)
      fun value => .inside (b.addInstruction ⟨m, some value, p⟩) around := by
  refine follows_consume ?_ ?_
  · intro t ht
    exact ⟨.neverClosed b.label, operandOf_of_eof ht m b.label, rfl⟩
  · intro t ht
    rw [feed]
    cases operandOf m b.label t <;> rfl

/-- Behind a keyword that is not `END` its instruction is completed. -/
theorem follows_instruction {m : Mnemonic} (hm : m ≠ .endBlock) (p : Position) (b : OpenBlock)
    (around : Around) :
    ∃ mid, (Reading.inside b around).feed ⟨.keyword m, p⟩ = .ok mid ∧ ∀ room,
      Follows room (instruction m p b.label) mid fun i => .inside (b.addInstruction i) around := by
  have hfeed : (Reading.inside b around).feed ⟨.keyword m, p⟩ =
      if m.operand = .nothing then .ok (.inside (b.addInstruction ⟨m, none, p⟩) around)
      else .ok (.operand m p b around) := by
    cases m with
    | endBlock => exact absurd rfl hm
    | op _ | mark => rfl
  by_cases hoperand : m.operand = .nothing
  · rw [if_pos hoperand] at hfeed
    refine ⟨_, hfeed, fun room => ?_⟩
    rw [instruction, if_pos hoperand]
    exact follows_pure rfl
  · rw [if_neg hoperand] at hfeed
    refine ⟨_, hfeed, fun room => ?_⟩
    rw [instruction, if_neg hoperand]
    exact (follows_operand m p b around).bind fun _ => follows_pure rfl

theorem Follows.block {rest : OpenBlock → Descent CodeBlock}
    (hrest : ∀ b around, Follows room (rest b) (.inside b around) fun b => (around.add b).host)
    (label : String) (line : Nat) (around : Around) :
    Follows room (block rest label line) (.labelled label line around)
      fun b => (around.add b).host :=
  (follows_colon label line around).bind fun _ => hrest (.start label line) around

/-- The loop over a block needs one round more than there are tokens. -/
theorem follows_body (hrounds : room < rounds) (b : OpenBlock) (around : Around) :
    Follows room (body rounds b) (.inside b around) fun b => (around.add b).host := by
  induction rounds generalizing room b around with
  | zero => exact absurd hrounds (Nat.not_lt_zero _)
  | succ rounds ih =>
    rw [body]
    refine follows_advance ?_ ?_
    · intro t ht
      exact ⟨.neverClosed b.label, by simp only [ht, reject_of_eof ht], rfl⟩
    · intro t ht
      obtain ⟨kind, p⟩ := t
      cases kind with
      | eof => exact absurd rfl ht
      | number _ | colon => exact .inl ⟨_, rfl, rfl⟩
      | identifier label =>
        -- Both the nested block and what comes behind it have one round less, and the label has
        -- taken one token of the room.
        refine .inr ⟨_, rfl, fun room' hless => ?_⟩
        have hrest : room' < rounds := by omega
        refine (Follows.block (ih hrest) label p.line (around.enter b)).bind fun nested => ?_
        exact ih hrest (b.addBlock nested) around
      | keyword m =>
        -- All keywords but `END` go the same way.
        have hinstruction (hm : m ≠ .endBlock) : ∃ mid,
            (Reading.inside b around).feed ⟨.keyword m, p⟩ = .ok mid ∧ ∀ room' < room,
              Follows room' (instruction m p b.label >>= fun i => body rounds (b.addInstruction i))
                mid fun b => (around.add b).host := by
          obtain ⟨mid, hmid, hfollows⟩ := follows_instruction hm p b around
          refine ⟨mid, hmid, fun room' hless => (hfollows room').bind fun i => ?_⟩
          exact ih (by omega) (b.addInstruction i) around
        cases m with
        | endBlock =>
          refine .inr ⟨_, rfl, fun _ _ => ?_⟩
          exact (follows_end b around).bind fun _ => follows_pure rfl
        | op opcode => exact .inr (hinstruction (by simp))
        | mark => exact .inr (hinstruction (by simp))

/-- The loop over a program needs one round more than there are tokens as well, and it comes to the
result that reading comes to. -/
theorem run_program (finished : List CodeBlock) (hc : c.Valid)
    (hrounds : c.stop < c.current + rounds) :
    ∃ result n, (program rounds finished).run.run c = some (result, c.ahead n) ∧
      Stops c (.between finished) result n := by
  induction rounds generalizing finished c with
  | zero => exact absurd hc.current_le (Nat.not_le_of_lt hrounds)
  | succ rounds ih =>
    obtain ⟨⟨kind, p⟩, hadvance, hmeets⟩ := run_advance hc
    rw [program, run_bind, hadvance]
    cases hmeets with
    | atStop heof hstop =>
      obtain rfl : kind = .eof := heof
      exact ⟨.ok finished.reverse, 1, rfl, stops_at_end hc hstop⟩
    | inFront hkind hlt hunread =>
      cases kind with
      | eof => exact absurd rfl hkind
      | number _ | keyword _ | colon =>
        refine ⟨_, 1, rfl, Nat.one_pos, by omega, ?_⟩
        rw [hunread, run]
        rfl
      | identifier label =>
        have hnext : (c.ahead 1).current = c.current + 1 := current_ahead_of_le hlt
        have hfirst : (Reading.between finished).run c.reader.unread =
            (Reading.labelled label p.line ⟨finished, []⟩).run (c.ahead 1).reader.unread := by
          rw [hunread, run]
          rfl
        have hbody (b : OpenBlock) (around : Around) :
            Follows (c.stop - (c.current + 1)) (body rounds b) (.inside b around)
              fun b => (around.add b).host := follows_body (by omega) b around
        have hroom : (c.ahead 1).stop ≤ (c.ahead 1).current + (c.stop - (c.current + 1)) := by
          rw [stop_ahead, hnext]
          omega
        have hblock := Follows.block hbody label p.line ⟨finished, []⟩ _ (hc.ahead 1) hroom
        simp only [run_bind]
        generalize (block (body rounds) label p.line).run.run (c.ahead 1) = outcome at hblock ⊢
        cases hblock with
        | @ok b n hn hrun =>
          -- The label alone has moved the cursor, so that the rounds that are left suffice for the
          -- blocks behind this one.
          rw [stop_ahead, hnext, Nat.add_assoc] at hn
          rw [ahead_ahead hlt] at hrun ⊢
          have hrest : c.stop < (c.ahead (1 + n)).current + rounds := by
            rw [current_ahead_of_le hn]
            omega
          obtain ⟨result, m, hprogram, hstops⟩ := ih (b :: finished) (hc.ahead (1 + n)) hrest
          rw [ahead_ahead hn] at hprogram
          exact ⟨result, 1 + n + m, hprogram, hstops.behind hn (hfirst.trans hrun)⟩
        | error h =>
          rw [ahead_ahead hlt]
          exact ⟨_, _, rfl, h.behind hlt hfirst⟩

end Descent

/-! ## Attempts -/

namespace Cursor

/-- An attempt to read the program from the cursor on. -/
def readTree (rounds : Nat) (c : Cursor) : Option (Except ReadError (List CodeBlock) × Cursor) :=
  (Descent.program rounds []).run.run c

/-- An attempt that looks at some tokens, one after the other, comes to the result of the reader that
has these tokens in front of it. -/
theorem readTree_eq {c : Cursor} {rounds : Nat} (hc : c.Valid)
    (hrounds : c.stop < c.current + rounds) :
    ∃ n, 0 < n ∧ c.current + n ≤ c.stop + 1 ∧
      c.readTree rounds = some (c.reader.readTree.1, c.ahead n) ∧
      c.reader.readTree.2 = (c.ahead n).reader := by
  obtain ⟨result, n, hprogram, hpos, hle, hrun⟩ := Descent.run_program [] hc hrounds
  have hreader : c.reader.readTree = (result, (c.ahead n).reader) := by
    rw [Reader.readTree, Reading.start, hrun]
  exact ⟨n, hpos, hle, hreader ▸ hprogram, by rw [hreader]⟩

end Cursor

end BlockMachine
