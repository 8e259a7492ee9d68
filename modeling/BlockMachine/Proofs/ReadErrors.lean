import BlockMachine.Proofs.Outline

/-! # Errors of reading stand at the first impossible token

A reader stops at the first token that no program could have there.  What it has read up to that
token can still be completed, however deep the open blocks are nested; and when it runs out of tokens
instead, all of them can.

* `Viable` — tokens that some program starts with;
* `Before.completes`, `Leads.completes` — closing the open blocks one after the other completes what
  has been read;
* `not_viable_of_feed` — no program goes on with a token that is refused;
* `Leads.innermost?` — the innermost open block of a reading is that of the outline of its tokens;
* `read_error_at_first_impossible_token` — the two kinds of errors.
-/

namespace BlockMachine

open Reading

/-- Some program starts with these tokens. -/
def Viable (ts : List Token) : Prop :=
  ∃ more forest, DerivesProgram (ts ++ more) forest

/-! ## What has been read can be completed -/

theorem Around.length_enclosing_add (around : Around) (b : CodeBlock) :
    (around.add b).enclosing.length = around.enclosing.length := by
  obtain ⟨finished, enclosing⟩ := around
  cases enclosing with
  | nil => rfl
  | cons outer enclosing => rfl

theorem Before.completes {ts : List Token} {around : Around} (h : Before ts around) :
    ∃ more forest, DerivesForest (ts ++ more) forest := by
  -- On the number of open blocks: the innermost one is closed, and one less is left.
  generalize hdepth : around.enclosing.length = depth
  induction depth generalizing ts around with
  | zero =>
    obtain ⟨finished, enclosing⟩ := around
    obtain rfl : enclosing = [] := List.eq_nil_of_length_eq_zero hdepth
    cases h with
    | program hforest => exact ⟨[], _, by rwa [List.append_nil]⟩
  | succ depth ih =>
    obtain ⟨finished, enclosing⟩ := around
    obtain ⟨b, outer, rfl⟩ := List.exists_cons_of_length_eq_add_one hdepth
    have hopen : Before ts (Around.enter b ⟨finished, outer⟩) := h
    have hless : (Around.add b.close ⟨finished, outer⟩).enclosing.length = depth := by
      rw [Around.length_enclosing_add]
      exact Nat.succ.inj hdepth
    obtain ⟨more, forest, hforest⟩ := ih (hopen.close .start .start) hless
    rw [List.append_assoc] at hforest
    exact ⟨_, forest, hforest⟩

/-- Behind a keyword that takes an operand, there is one that it takes. -/
theorem Mnemonic.exists_operand {m : Mnemonic} (h : m.operand ≠ .nothing) (p : Position) :
    ∃ t i, DerivesInstruction [⟨.keyword m, p⟩, t] i := by
  have hkind := m.of_operand
  cases hoperand : m.operand with
  | nothing => exact absurd hoperand h
  | number =>
    rw [hoperand] at hkind
    have hzero : SignedDecimal "0".toList (0 : Int32).toInt := number_eq_some.1 (by decide)
    exact ⟨⟨.number "0", p⟩, _, .number hkind hzero⟩
  | name =>
    rw [hoperand] at hkind
    exact ⟨⟨.identifier "", p⟩, _, .name hkind⟩

/-- What has led to a reading can be completed; nothing more is needed only when no block is open. -/
theorem Leads.completes {ts : List Token} {r : Reading} (h : Leads ts r) :
    ∃ more forest, DerivesForest (ts ++ more) forest ∧
      (more ≠ [] ∨ ∃ finished, r = .between finished) := by
  -- In each case some tokens lead to a place where a block may start.
  suffices hnext : ∃ front around, Before (ts ++ front) around ∧
      (front ≠ [] ∨ ∃ finished, r = .between finished) by
    obtain ⟨front, around, hbefore, hfront⟩ := hnext
    obtain ⟨more, forest, hforest⟩ := hbefore.completes
    refine ⟨front ++ more, forest, by rwa [← List.append_assoc], ?_⟩
    obtain hfront | hbetween := hfront
    · exact .inl (List.append_ne_nil_of_left_ne_nil hfront more)
    · exact .inr hbetween
  cases r with
  | between finished =>
    exact ⟨[], ⟨finished, []⟩, by rwa [List.append_nil], .inr ⟨finished, rfl⟩⟩
  | labelled label line around =>
    obtain ⟨before, p, rfl, hline, hbefore⟩ := h
    refine ⟨[⟨.colon, p⟩], around.enter (.start label line), ?_, .inl (List.cons_ne_nil _ _)⟩
    rw [List.append_assoc]
    exact .block (b := .start label line) hbefore hline .nil
  | inside b around =>
    exact ⟨_, around.add b.close, Before.close h .start .start, .inl (List.cons_ne_nil _ _)⟩
  | operand m p b around =>
    obtain ⟨before, rfl, hm, hbefore⟩ := h
    obtain ⟨t, i, hi⟩ := m.exists_operand hm p
    refine ⟨[t], around.enter (b.addInstruction i), ?_, .inl (List.cons_ne_nil _ _)⟩
    rw [List.append_assoc]
    exact hbefore.addInstruction hi
  | closing b around =>
    obtain ⟨before, p, rfl, hbefore⟩ := h
    refine ⟨[⟨.identifier b.label, p⟩], around.add b.close, ?_, .inl (List.cons_ne_nil _ _)⟩
    rw [List.append_assoc]
    exact hbefore.close p p

/-! ## Where reading stops -/

namespace Reading

theorem Feeds.unique {r a b : Reading} {ts : List Token} (h : Feeds r ts a) (h' : Feeds r ts b) :
    a = b := by
  induction h with
  | nil =>
    cases h'
    rfl
  | cons hfirst _ ih =>
    cases h' with
    | cons hfirst' hrest' =>
      cases hfirst.symm.trans hfirst'
      exact ih hrest'

theorem Feeds.split {r r' : Reading} {ts ts' : List Token} (h : Feeds r (ts ++ ts') r') :
    ∃ mid, Feeds r ts mid ∧ Feeds mid ts' r' := by
  induction ts generalizing r with
  | nil => exact ⟨r, .nil, h⟩
  | cons t ts ih =>
    cases h with
    | cons hfirst hrest =>
      obtain ⟨mid, hts, hts'⟩ := ih hrest
      exact ⟨mid, .cons hfirst hts, hts'⟩

/-- Reading fails at the end of the tokens or at one of them, behind which they stay unread. -/
theorem run_eq_error {r : Reading} {ts rest : List Token} {e : ReadError}
    (h : r.run ts = (.error e, rest)) :
    (∃ r', Feeds r ts r' ∧ r'.finish = .error e) ∨
      ∃ used t r', ts = used ++ t :: rest ∧ Feeds r used r' ∧ r'.feed t = .error e := by
  induction ts generalizing r with
  | nil =>
    rw [run, Prod.mk.injEq] at h
    exact .inl ⟨r, .nil, h.1⟩
  | cons t ts ih =>
    rw [run] at h
    cases hfeed : r.feed t with
    | error e' =>
      rw [hfeed] at h
      cases h
      exact .inr ⟨[], t, r, rfl, .nil, hfeed⟩
    | ok mid =>
      rw [hfeed] at h
      obtain ⟨r', hfeeds, hfinish⟩ | ⟨used, t', r', rfl, hfeeds, herror⟩ := ih h
      · exact .inl ⟨r', .cons hfeed hfeeds, hfinish⟩
      · exact .inr ⟨t :: used, t', r', rfl, .cons hfeed hfeeds, herror⟩

end Reading

theorem not_viable_of_feed {used : List Token} {t : Token} {r : Reading} {e : ReadError}
    (hused : ∀ u ∈ used, u.kind ≠ .eof) (ht : t.kind ≠ .eof) (hfeeds : Feeds .start used r)
    (herror : r.feed t = .error e) : ¬ Viable (used ++ [t]) := by
  intro hviable
  obtain ⟨more, forest, hprogram⟩ := hviable
  have hfront := hprogram.front
  have hunread : (Reader.ofTokens (used ++ [t] ++ more)).unread =
      used ++ ([t] ++ (Reader.ofTokens more).unread) := by
    simp only [Reader.ofTokens]
    rw [List.append_assoc, List.takeWhile_append_of_pos, List.takeWhile_append_of_pos]
    · simpa using ht
    · simpa using hused
  rw [hunread] at hfront
  obtain ⟨mid, hbefore, hafter⟩ := (hfront.feeds []).split
  obtain rfl := hfeeds.unique hbefore
  cases hafter with
  | cons hfirst _ => cases herror.symm.trans hfirst

/-! ## Errors and tokens -/

/-- Where an error stands; an error at the end of the input has no position. -/
def ReadError.position? : ReadError → Option Position
  | unexpected _ _ p | mismatchedEnd _ _ p | invalidNumber _ p => some p
  | neverClosed _ => none

theorem position?_reject {t : Token} (ht : t.kind ≠ .eof) (label : String) (expected : Expected) :
    (reject label expected t).position? = some t.position := by
  obtain ⟨kind, p⟩ := t
  cases kind with
  | eof => exact absurd rfl ht
  | number _ | identifier _ | keyword _ | colon => rfl

theorem position?_operandOf {m : Mnemonic} {label : String} {t : Token} {e : ReadError}
    (ht : t.kind ≠ .eof) (h : operandOf m label t = .error e) : e.position? = some t.position := by
  simp only [operandOf] at h
  split at h
  · split at h
    · cases h
    · cases h
      rfl
  · cases h
    exact position?_reject ht _ _
  · cases h
  · cases h
    exact position?_reject ht _ _

/-- An error at a token has the position of the token. -/
theorem position?_of_feed {r : Reading} {t : Token} {e : ReadError} (ht : t.kind ≠ .eof)
    (h : r.feed t = .error e) : e.position? = some t.position := by
  cases r with
  | between finished =>
    simp only [feed] at h
    split at h
    · cases h
    · cases h
    · cases h
      rfl
  | labelled label line around =>
    simp only [feed] at h
    split at h
    · cases h
    · cases h
      exact position?_reject ht _ _
  | inside b around =>
    simp only [feed] at h
    split at h
    · cases h
    · split at h <;> cases h
    · cases h
    · cases h
      exact position?_reject ht _ _
  | operand m p b around =>
    simp only [feed] at h
    cases hvalue : operandOf m b.label t with
    | ok v => rw [hvalue] at h; cases h
    | error e' =>
      rw [hvalue] at h
      cases h
      exact position?_operandOf ht hvalue
  | closing b around =>
    simp only [feed] at h
    split at h
    · split at h
      · cases h
      · cases h
        rfl
    · cases h
      exact position?_reject ht _ _

/-! ## The innermost open block -/

/-- The label of the innermost block that is open. -/
def Reading.innermost? : Reading → Option String
  | between _ => none
  | labelled label _ _ => some label
  | inside b _ | operand _ _ b _ | closing b _ => some b.label

theorem finish_eq_error {r : Reading} {e : ReadError} (h : r.finish = .error e) :
    ∃ label, e = .neverClosed label ∧ r.innermost? = some label := by
  cases r with
  | between finished => cases h
  | labelled label line around =>
    cases h
    exact ⟨label, rfl, rfl⟩
  | inside b around | operand m p b around | closing b around =>
    cases h
    exact ⟨b.label, rfl, rfl⟩

/-- Where a block may start, the outline of the tokens in front has the same open blocks. -/
theorem Before.outline {ts : List Token} {around : Around} (h : Before ts around) :
    (Outline.ofTokens ts).due = none ∧ (Outline.ofTokens ts).Owned ∧
      (Outline.ofTokens ts).stack.map Prod.snd = around.enclosing.map OpenBlock.label := by
  induction h with
  | program hforest =>
    have hgains := hforest.outline (o := .empty) rfl Outline.owned_empty
    exact ⟨hgains.due, hgains.owned, by rw [Outline.ofTokens, hgains.stack]; rfl⟩
  | @block ts items finished b enclosing p q _ _ hitems ih =>
    obtain ⟨hdue, howned, hstack⟩ := ih
    have hgains := hitems.outline (o := (Outline.ofTokens ts).enter b.label p.line) hdue
      (howned.enter b.label p.line) rfl
    rw [Outline.ofTokens_append, Outline.scan_open hdue]
    refine ⟨hgains.due, hgains.owned, ?_⟩
    rw [hgains.stack, List.map_cons, ← hstack]
    rfl

theorem Before.innermost? {ts : List Token} {around : Around} (h : Before ts around) :
    (Outline.ofTokens ts).innermost? = around.enclosing.head?.map OpenBlock.label := by
  obtain ⟨_, _, hstack⟩ := h.outline
  rw [Outline.innermost?, ← List.head?_map, hstack, List.head?_map]

theorem Leads.innermost? {ts : List Token} {r : Reading} (h : Leads ts r) :
    (Outline.ofTokens ts).innermost? = r.innermost? := by
  cases r with
  | between finished | inside b around => exact Before.innermost? h
  | labelled label line around =>
    obtain ⟨before, p, rfl, _, hbefore⟩ := h
    rw [Outline.ofTokens_append, Outline.scan_cons, Outline.feed_label hbefore.outline.1]
    rfl
  | operand m p b around =>
    obtain ⟨before, rfl, hm, hbefore⟩ := h
    rw [Outline.ofTokens_append, Outline.scan_cons,
      Outline.feed_keyword hbefore.outline.1 (.inr hm)]
    exact hbefore.innermost?
  | closing b around =>
    obtain ⟨before, p, rfl, hbefore⟩ := h
    rw [Outline.ofTokens_append, Outline.scan_cons,
      Outline.feed_keyword hbefore.outline.1 (.inl rfl)]
    exact hbefore.innermost?

/-! ## Errors -/

/-- Reading fails in one of two ways.  At the end of the input the tokens in front of it could have
gone on, and the error names the innermost block that is open.  Everywhere else the error stands at
the token that was read last: some program starts with the tokens in front of it, and none with that
token added. -/
theorem read_error_at_first_impossible_token (ts : List Token) (p : Position)
    (hts : ∀ t ∈ ts, t.kind ≠ .eof) (e : ReadError) (after : Reader)
    (h : (Reader.ofTokens (ts ++ [⟨.eof, p⟩])).readTree = (.error e, after)) :
    match e with
    | .neverClosed label =>
      (∃ more forest, more ≠ [] ∧ DerivesProgram (ts ++ more ++ [⟨.eof, p⟩]) forest) ∧
        (Outline.ofTokens ts).innermost? = some label
    | _ =>
      ∃ used offending, ts = used ++ offending :: after.unread ∧ Viable used ∧
        ¬ Viable (used ++ [offending]) ∧ e.position? = some offending.position := by
  have hrun : Reading.start.run ts = (.error e, after.unread) := by
    have hread : ∀ r : Reader, r.readTree =
        ((Reading.start.run r.unread).1, ⟨(Reading.start.run r.unread).2⟩) := fun _ => rfl
    rw [hread, unread_of_eof hts, Prod.mk.injEq] at h
    obtain ⟨hresult, rfl⟩ := h
    exact Prod.ext hresult rfl
  obtain ⟨r, hfeeds, hfinish⟩ | ⟨used, t, r, rfl, hfeeds, herror⟩ := run_eq_error hrun
  · have hleads : Leads ts r := hfeeds.leads hts (.program .nil)
    obtain ⟨label, rfl, hlabel⟩ := finish_eq_error hfinish
    obtain ⟨more, forest, hforest, hmore | ⟨finished, rfl⟩⟩ := hleads.completes
    · exact ⟨⟨more, forest, hmore, .marked hforest⟩, hleads.innermost?.trans hlabel⟩
    · cases hlabel
  · rw [List.forall_mem_append, List.forall_mem_cons] at hts
    have hleads : Leads used r := hfeeds.leads hts.1 (.program .nil)
    obtain ⟨more, forest, hforest, _⟩ := hleads.completes
    have hviable : Viable used := ⟨more, forest, .unmarked hforest⟩
    have himpossible := not_viable_of_feed hts.1 hts.2.1 hfeeds herror
    have hposition := position?_of_feed hts.2.1 herror
    cases e with
    | neverClosed label => cases hposition
    | unexpected _ _ _ | mismatchedEnd _ _ _ | invalidNumber _ _ =>
      exact ⟨used, t, rfl, hviable, himpossible, hposition⟩

/-- A block that is closed by the label of the one around it, and the same tokens cut off behind the
label of the inner block. -/
theorem read_error_at_first_impossible_token_wrong_end :
    let place (column : Nat) : Position := ⟨1, column⟩
    let cut : List Token :=
      [⟨.identifier "main", place 1⟩, ⟨.colon, place 2⟩, ⟨.identifier "inner", place 3⟩]
    let used : List Token := cut ++ [⟨.colon, place 4⟩, ⟨.keyword .endBlock, place 5⟩]
    let tokens : List Token := used ++ [⟨.identifier "main", place 6⟩, ⟨.colon, place 7⟩]
    let eof : Token := ⟨.eof, place 8⟩
    let e : ReadError := .mismatchedEnd "inner" "main" (place 6)
    (∀ t ∈ tokens, t.kind ≠ .eof) ∧
      (Reader.ofTokens (tokens ++ [eof])).readTree = (.error e, ⟨[⟨.colon, place 7⟩]⟩) ∧
      (∃ used offending, tokens = used ++ offending :: [⟨.colon, place 7⟩] ∧ Viable used ∧
        ¬ Viable (used ++ [offending]) ∧ e.position? = some offending.position) ∧
      (Reader.ofTokens (cut ++ [eof])).readTree = (.error (.neverClosed "inner"), ⟨[]⟩) ∧
      (∃ more forest, more ≠ [] ∧ DerivesProgram (cut ++ more ++ [eof]) forest) ∧
      (Outline.ofTokens cut).innermost? = some "inner" := by
  intro place cut used tokens eof e
  have hts : ∀ t ∈ tokens, t.kind ≠ .eof := by decide
  have hcut : ∀ t ∈ cut, t.kind ≠ .eof := by decide
  have hread : (Reader.ofTokens (tokens ++ [eof])).readTree =
      (.error e, ⟨[⟨.colon, place 7⟩]⟩) := rfl
  have hreadCut : (Reader.ofTokens (cut ++ [eof])).readTree =
      (.error (.neverClosed "inner"), ⟨[]⟩) := rfl
  exact ⟨hts, hread, read_error_at_first_impossible_token tokens _ hts _ _ hread, hreadCut,
    read_error_at_first_impossible_token cut _ hcut _ _ hreadCut⟩

end BlockMachine
