import BlockMachine.Proofs.CursorReading
import BlockMachine.Proofs.Serving

/-! # Reading on after errors

A reader that has met an error can be asked again, and goes on behind the token it failed at, be it in
the middle of a block.  Whatever the tokens are, and however often it is asked, its cursor goes over
them once: every request that does not come to the end of the input takes a token away for good, and
from the end on there is nothing left to read.

* `ReadRequest`, `ReadReply` — what a reader is asked for, and what it gives;
* `Reader.after`, `Cursor.after` — many requests, to a reader and to a cursor;
* `Cursor.trail` — all indices that a cursor has stood at;
* `Cursor.Tracks` — a cursor that has come as far as a reader; `Tracks.serve` is about one request,
  `Tracks.after` about many.
-/

namespace BlockMachine

inductive ReadRequest
  | tree
  | flat
  deriving DecidableEq, Repr

inductive ReadReply
  | tree (result : Except ReadError (List CodeBlock))
  | flat (result : Except ReadError (List FlatBlock))

namespace ReadRequest

/-- What is made of the outcome of an attempt. -/
def reply : ReadRequest → Except ReadError (List CodeBlock) → ReadReply
  | tree, result => .tree result
  | flat, result => .flat (result.map CodeBlock.flattenAll)

/-- The reply that there are no blocks. -/
def nothing : ReadRequest → ReadReply
  | tree => .tree (.ok [])
  | flat => .flat (.ok [])

end ReadRequest

def ReadReply.isOk : ReadReply → Bool
  | tree result => result.isOk
  | flat result => result.isOk

theorem ReadRequest.isOk_reply (request : ReadRequest) (result : Except ReadError (List CodeBlock)) :
    (request.reply result).isOk = result.isOk := by
  cases request with
  | tree => rfl
  | flat => cases result <;> rfl

/-! ## Requests to a reader -/

namespace Reader

def serve (r : Reader) : ReadRequest → ReadReply × Reader
  | .tree => (.tree r.readTree.1, r.readTree.2)
  | .flat => (.flat r.readFlat.1, r.readFlat.2)

def after (r : Reader) (requests : List ReadRequest) : Reader :=
  Serving.after serve r requests

theorem serve_eq (r : Reader) (request : ReadRequest) :
    r.serve request = (request.reply r.readTree.1, r.readTree.2) := by
  cases request <;> rfl

theorem serve_of_unread_nil {r : Reader} (h : r.unread = []) (request : ReadRequest) :
    (r.serve request).1 = request.nothing := by
  obtain ⟨unread⟩ := r
  obtain rfl := h
  cases request <;> rfl

end Reader

/-- Blocks are given only when all tokens have been read. -/
theorem Reading.unread_of_isOk {r : Reading} {ts : List Token} (h : (r.run ts).1.isOk = true) :
    (r.run ts).2 = [] := by
  induction ts generalizing r with
  | nil => rfl
  | cons t ts ih =>
    rw [run] at h ⊢
    cases hfeed : r.feed t with
    | error e => rw [hfeed] at h; cases h
    | ok r' => rw [hfeed] at h; exact ih h

theorem Reader.unread_of_isOk {r : Reader} {request : ReadRequest}
    (h : (r.serve request).1.isOk = true) : (r.serve request).2.unread = [] := by
  rw [serve_eq, ReadRequest.isOk_reply] at h
  rw [serve_eq]
  exact Reading.unread_of_isOk h

/-! ## Tokens of any kind -/

/-- Tokens with an end of the input behind them, unless they have one there. -/
def closed (tokens : List Token) : List Token :=
  if tokens.getLast?.map Token.kind = some .eof then tokens
  else tokens ++ [⟨.eof, tokens.getLast?.elim .start Token.position⟩]

theorem exists_eof_closed (tokens : List Token) : ∃ t ∈ closed tokens, t.kind = .eof := by
  rw [closed]
  split
  · next heof =>
    obtain ⟨t, ht, hkind⟩ := Option.map_eq_some_iff.1 heof
    exact ⟨t, List.mem_of_getLast? ht, hkind⟩
  · exact ⟨_, List.mem_concat_self, rfl⟩

/-- What is added behind the tokens is never read. -/
theorem ofTokens_closed (tokens : List Token) :
    Reader.ofTokens (closed tokens) = Reader.ofTokens tokens := by
  rw [closed]
  split
  · rfl
  · simp only [Reader.ofTokens, List.takeWhile_append]
    split
    · next hall =>
      have hself := List.takeWhile_prefix (l := tokens) (·.kind != .eof) |>.eq_of_length hall
      simp [hself]
    · rfl

namespace Cursor

def ofTokens (tokens : List Token) : Cursor :=
  ⟨closed tokens, 0, []⟩

def serve (rounds : Nat) (c : Cursor) (request : ReadRequest) : Option (ReadReply × Cursor) :=
  (c.readTree rounds).map fun (result, c) => (request.reply result, c)

def after (rounds : Nat) (c : Cursor) (requests : List ReadRequest) : Option Cursor :=
  Serving.after (Serving.attempt (serve rounds)) (some c) requests

/-- All indices that the cursor has stood at, the latest first. -/
def trail (c : Cursor) : List Nat :=
  c.current :: c.looks

theorem reader_ofTokens (tokens : List Token) : (ofTokens tokens).reader = Reader.ofTokens tokens := by
  rw [reader, ofTokens, ofTokens_closed]
  rfl

theorem valid_ofTokens (tokens : List Token) : (ofTokens tokens).Valid := by
  obtain ⟨t, ht, hkind⟩ := exists_eof_closed tokens
  exact ⟨Nat.zero_le _, List.findIdx_lt_length_of_exists ⟨t, ht, by simp [hkind]⟩⟩

theorem stop_ofTokens_le (tokens : List Token) : (ofTokens tokens).stop ≤ tokens.length := by
  have hunread := unread_eq (ofTokens tokens)
  rw [reader_ofTokens] at hunread
  have hlength : (Reader.ofTokens tokens).unread.length = (ofTokens tokens).stop := by
    rw [hunread]
    exact List.length_take_of_le (Nat.le_of_lt (valid_ofTokens tokens).stop_lt)
  rw [← hlength]
  exact (List.takeWhile_sublist _).length_le

/-- A cursor that goes ahead never goes back. -/
theorem trail_ahead {c : Cursor} {n : Nat} (hc : c.Valid) (hn : c.current + n ≤ c.stop + 1)
    (h : c.trail.Pairwise (· ≥ ·)) : (c.ahead n).trail.Pairwise (· ≥ ·) := by
  rw [trail, List.pairwise_cons] at h ⊢
  obtain ⟨hbelow, hlooks⟩ := h
  have hmoved : (c.ahead n).current = min (c.current + n) c.stop := current_ahead
  have hcurrent := hc.current_le
  have hrange : ∀ i ∈ List.range' c.current n, c.current ≤ i ∧ i ≤ (c.ahead n).current := by
    intro i hi
    rw [List.mem_range'_1] at hi
    omega
  constructor
  · intro i hi
    rw [Cursor.ahead, List.mem_append, List.mem_reverse] at hi
    obtain hi | hi := hi
    · exact (hrange i hi).2
    · have hold := hbelow i hi
      omega
  · refine List.pairwise_append.2 ⟨?_, hlooks, ?_⟩
    · exact List.pairwise_reverse.2 ((List.pairwise_lt_range' 1).imp Nat.le_of_lt)
    · intro i hi j hj
      have hnew := hrange i (List.mem_reverse.1 hi)
      have hold := hbelow j hj
      omega

/-! ## Cursors and readers -/

/-- The cursor has come as far as a reader of the same tokens. -/
structure Tracks (c : Cursor) (tokens : List Token) (r : Reader) : Prop where
  tokens_eq : c.tokens = closed tokens
  reader_eq : c.reader = r
  valid : c.Valid
  trail_ordered : c.trail.Pairwise (· ≥ ·)

theorem tracks_ofTokens (tokens : List Token) :
    (ofTokens tokens).Tracks tokens (Reader.ofTokens tokens) :=
  ⟨rfl, reader_ofTokens tokens, valid_ofTokens tokens, List.pairwise_singleton _ _⟩

namespace Tracks

variable {c : Cursor} {tokens : List Token} {r : Reader} {rounds : Nat}

theorem stop_eq (h : c.Tracks tokens r) : c.stop = (ofTokens tokens).stop := by
  rw [stop, h.tokens_eq]
  rfl

theorem unread_eq_nil_iff (h : c.Tracks tokens r) :
    r.unread = [] ↔ c.current = (ofTokens tokens).stop := by
  rw [← h.reader_eq, Cursor.unread_eq_nil_iff h.valid, h.stop_eq]

theorem trail_le (h : c.Tracks tokens r) : ∀ i ∈ c.trail, i ≤ (ofTokens tokens).stop := by
  have hcurrent := h.valid.current_le
  rw [h.stop_eq] at hcurrent
  have hordered := h.trail_ordered
  rw [trail, List.pairwise_cons] at hordered
  intro i hi
  obtain rfl | hi := List.mem_cons.1 hi
  · exact hcurrent
  · exact (hordered.1 i hi).trans hcurrent

/-- One request is answered alike, and the cursor goes ahead unless it is at the end. -/
theorem serve (h : c.Tracks tokens r) (hrounds : (closed tokens).length ≤ rounds)
    (request : ReadRequest) :
    ∃ c', c.serve rounds request = some ((r.serve request).1, c') ∧
      c'.Tracks tokens (r.serve request).2 ∧
      min (c.current + 1) (ofTokens tokens).stop ≤ c'.current := by
  have hstop := h.valid.stop_lt
  rw [h.tokens_eq] at hstop
  have henough : c.stop < c.current + rounds := by omega
  obtain ⟨n, hpos, hn, hread, hreader⟩ := readTree_eq h.valid henough
  rw [h.reader_eq] at hread hreader
  refine ⟨c.ahead n, ?_, ⟨h.tokens_eq, ?_, h.valid.ahead n, ?_⟩, ?_⟩
  · rw [Cursor.serve, hread, Reader.serve_eq]
    rfl
  · rw [Reader.serve_eq]
    exact hreader.symm
  · exact trail_ahead h.valid hn h.trail_ordered
  · rw [← h.stop_eq, current_ahead]
    omega

/-- After any requests the cursor is ahead by as many tokens, or at the end. -/
theorem after (h : c.Tracks tokens r) (hrounds : (closed tokens).length ≤ rounds)
    (requests : List ReadRequest) :
    ∃ c', c.after rounds requests = some c' ∧ c'.Tracks tokens (r.after requests) ∧
      min (c.current + requests.length) (ofTokens tokens).stop ≤ c'.current := by
  let ahead (n : Nat) (reached : Option Cursor) (r : Reader) : Prop :=
    ∃ c', reached = some c' ∧ c'.Tracks tokens r ∧
      min (c.current + n) (ofTokens tokens).stop ≤ c'.current
  refine Serving.after_related (R := ahead) ?_ ⟨c, rfl, h, Nat.min_le_left _ _⟩ requests
  rintro n _ r request ⟨mid, rfl, hmid, hcount⟩
  obtain ⟨c', hserve, hc', hahead⟩ := hmid.serve hrounds request
  refine ⟨c', ?_, hc', by omega⟩
  rw [Serving.attempt, hserve]
  rfl

end Tracks

end Cursor

/-! ## Sessions -/

/-- Requests to read from any tokens all return, however many they are, when the loops may take as
many rounds as there are tokens; and they are answered as by the reader.  The cursor stands at valid
indices only, goes back nowhere, and does not pass the first end of the input.  A request that fails
moves it ahead, and one that succeeds leaves it at that end.  There it stays, and all that is read is
nothing; this comes after at most as many requests as there are tokens. -/
theorem read_requests_come_to_end (tokens : List Token) (rounds : Nat)
    (hrounds : (closed tokens).length ≤ rounds) (before : List ReadRequest)
    (request : ReadRequest) :
    let stop := (closed tokens).findIdx (·.kind == .eof)
    ∃ c reply c',
      ((Cursor.ofTokens tokens).after rounds before = some c ∧
        c.serve rounds request = some (reply, c') ∧
        ((Reader.ofTokens tokens).after before).serve request = (reply, c'.reader)) ∧
      (c'.tokens = closed tokens ∧ stop < (closed tokens).length ∧ (∀ i ∈ c'.trail, i ≤ stop) ∧
        c'.trail.Pairwise (· ≥ ·) ∧ c.current ≤ c'.current) ∧
      (reply.isOk = false → c.current < c'.current) ∧
      (reply.isOk = true → c'.current = stop) ∧
      (c.current = stop → reply = request.nothing) ∧
      (tokens.length ≤ before.length → c.current = stop) := by
  intro stop
  obtain ⟨c, hafter, hc, hcount⟩ := (Cursor.tracks_ofTokens tokens).after hrounds before
  obtain ⟨c', hserve, hc', hahead⟩ := hc.serve hrounds request
  have hstop : (Cursor.ofTokens tokens).stop = stop := rfl
  have hle := hc.trail_le c.current List.mem_cons_self
  have hnothing : c.current = stop →
      (((Reader.ofTokens tokens).after before).serve request).1 = request.nothing :=
    fun hcurrent => Reader.serve_of_unread_nil (hc.unread_eq_nil_iff.2 hcurrent) request
  refine ⟨c, _, c', ⟨hafter, hserve, ?_⟩, ⟨hc'.tokens_eq, ?_, hc'.trail_le, hc'.trail_ordered,
    ?_⟩, ?_, ?_, hnothing, ?_⟩
  · rw [hc'.reader_eq]
  · exact (Cursor.valid_ofTokens tokens).stop_lt
  · omega
  · -- At the end of the input no request fails.
    intro hfailed
    have hbefore : c.current ≠ stop := by
      intro hcurrent
      rw [hnothing hcurrent] at hfailed
      cases request <;> cases hfailed
    omega
  · intro hok
    exact hc'.unread_eq_nil_iff.1 (Reader.unread_of_isOk hok)
  · intro hmany
    have hshort := Cursor.stop_ofTokens_le tokens
    have hzero : (Cursor.ofTokens tokens).current = 0 := rfl
    omega

/-- A block with an instruction that lacks its number, and more tokens behind the first end of the
input.  The first three requests fail, in the block, at its `END` and at its label. -/
theorem read_requests_come_to_end_broken_block :
    let place (column : Nat) : Position := ⟨1, column⟩
    let tokens : List Token :=
      [⟨.identifier "main", place 1⟩, ⟨.colon, place 2⟩, ⟨.keyword (.op .push), place 3⟩,
        ⟨.colon, place 4⟩, ⟨.keyword .endBlock, place 5⟩, ⟨.identifier "main", place 6⟩,
        ⟨.eof, place 7⟩, ⟨.identifier "other", place 8⟩]
    let first : Cursor := ⟨closed tokens, 4, [3, 2, 1, 0]⟩
    let second : Cursor := ⟨closed tokens, 5, [4, 3, 2, 1, 0]⟩
    let third : Cursor := ⟨closed tokens, 6, [6, 5, 4, 3, 2, 1, 0]⟩
    (closed tokens).length ≤ 9 ∧
      (Cursor.ofTokens tokens).serve 9 .tree = some (.tree (.error
        (.unexpected (.number (.op .push)) .colon (place 4))), first) ∧
      first.serve 9 .flat = some (.flat (.error
        (.unexpected .blockLabel (.keyword .endBlock) (place 5))), second) ∧
      second.serve 9 .tree = some (.tree (.error (.neverClosed "main")), third) ∧
      ∃ c', third.serve 9 .flat = some (.flat (.ok []), c') ∧ c'.current = third.current := by
  intro place tokens first second third
  have hrounds : (closed tokens).length ≤ 9 := by decide
  refine ⟨hrounds, rfl, rfl, rfl, ?_⟩
  obtain ⟨c, reply, c', ⟨hafter, hserve, -⟩, -, -, hend, hnothing, -⟩ :=
    read_requests_come_to_end tokens 9 hrounds [.tree, .flat, .tree] .flat
  obtain rfl : third = c := Option.some.inj hafter
  obtain rfl : reply = .flat (.ok []) := hnothing rfl
  exact ⟨c', hserve, hend rfl⟩

end BlockMachine
