import BlockMachine.Proofs.RejectedCharacters
import BlockMachine.Proofs.Serving

/-! # What a scan says about itself

A scan can be asked any number of times for its tokens, for the characters it has rejected and for
whether it is clean.  The text is read by the first request for tokens, and the rejected characters
stay on record until they are taken away.  A scan whose record has been taken away is clean again,
whatever it has read.

* `ScanRequest`, `ScanReply` — what a scan is asked for, and what it gives;
* `Scan.serve` — one request, `Scan.after`, `Scan.answers` — many of them;
* `Scan.rejections_after_of_end` — behind the end of the text the record can only be taken away;
* `Scan.rejections_after` — what is on record after any requests, from the start of the text.
-/

namespace BlockMachine

inductive ScanRequest
  | tokenize
  | isClean
  | rejections
  | takeRejections
  deriving DecidableEq, Repr

inductive ScanReply
  | tokens (tokens : List Token)
  | clean (answer : Bool)
  | rejections (rejections : List Rejection)
  deriving DecidableEq, Repr

namespace Scan

def serve (s : Scan) : ScanRequest → ScanReply × Scan
  | .tokenize => (.tokens s.tokenize.1, s.tokenize.2)
  | .isClean => (.clean s.isClean, s)
  | .rejections => (.rejections s.rejections, s)
  | .takeRejections => (.rejections s.takeRejections.1, s.takeRejections.2)

def after (s : Scan) (requests : List ScanRequest) : Scan :=
  Serving.after serve s requests

def answers (s : Scan) (requests : List ScanRequest) : List ScanReply :=
  Serving.answers serve s requests

theorem after_cons (s : Scan) (request : ScanRequest) (requests : List ScanRequest) :
    s.after (request :: requests) = (s.serve request).2.after requests := rfl

/-! ## Before and behind the text -/

/-- A scan without a record has none to take away. -/
theorem serve_of_unrecorded {s : Scan} (h : s.rejections = []) {request : ScanRequest}
    (hrequest : request ≠ .tokenize) : (s.serve request).2 = s := by
  cases request with
  | tokenize => exact absurd rfl hrequest
  | isClean | rejections => rfl
  | takeRejections =>
    obtain ⟨source, unread, position, rejections⟩ := s
    obtain rfl := h
    rfl

/-- There is nothing left to read behind the end of the text. -/
theorem tokenize_of_end {s : Scan} (h : s.cursor = s.source.length) : s.tokenize.2 = s := by
  have hunread : s.unread = [] := by rw [unread, h, List.drop_length]
  have hposition : s.endPosition = s.position := by rw [endPosition, hunread, Position.after_nil]
  have hnone : s.newRejections = [] := by rw [newRejections, hunread, segments, rejectionsOf]
  rw [tokenize, hposition, hnone, List.append_nil, ← h]

theorem rejections_after_of_end {s : Scan} (h : s.cursor = s.source.length)
    (requests : List ScanRequest) :
    (s.after requests).rejections =
      if .takeRejections ∈ requests then [] else s.rejections := by
  induction requests generalizing s with
  | nil => rfl
  | cons request requests ih =>
    rw [after_cons]
    cases request with
    | tokenize => simpa [serve, tokenize_of_end h] using ih h
    | isClean | rejections => simpa [serve] using ih h
    | takeRejections => simpa [serve, takeRejections] using ih (s := s.takeRejections.2) h

/-- The rejected characters are on record from the first request for tokens to the first time behind
it that they are taken away. -/
theorem rejections_after (source : String) (requests : List ScanRequest) :
    ((ofString source).after requests).rejections =
      if .tokenize ∈ requests ∧ .takeRejections ∉ requests.dropWhile (· != .tokenize) then
        (ofString source).newRejections
      else [] := by
  induction requests with
  | nil => rfl
  | cons request requests ih =>
    by_cases hrequest : request = .tokenize
    · -- The text is read here; what follows is asked of a scan that is at its end.
      have hread : (ofString source).tokenize.2.rejections = (ofString source).newRejections := rfl
      rw [hrequest, after_cons, serve, rejections_after_of_end rfl, hread]
      simp
    · have hmem : .tokenize ∈ request :: requests ↔ .tokenize ∈ requests :=
        List.mem_cons.trans (or_iff_right (Ne.symm hrequest))
      rw [after_cons, serve_of_unrecorded rfl hrequest, ih, List.dropWhile_cons_of_pos (by simpa)]
      simp only [hmem]

end Scan

/-! ## Foreign characters -/

/-- A place with a foreign character is one that has a rejection. -/
theorem rejectionAt?_eq_none_iff {text : List Char} {i : Nat} :
    rejectionAt? text i = none ↔ ∀ c, text[i]? = some c → ¬ Foreign (text.take i) c := by
  cases hc : text[i]? with
  | none => simp [rejectionAt?, hc]
  | some c => simp [rejectionAt?, hc]

theorem newRejections_ofString_eq_nil_iff {source : String} :
    (Scan.ofString source).newRejections = [] ↔
      ∀ i c, source.toList[i]? = some c → ¬ Foreign (source.toList.take i) c := by
  rw [newRejections_ofString, List.filterMap_eq_nil_iff]
  constructor
  · intro h i c hc
    have hi : i < source.toList.length := (List.getElem?_eq_some_iff.1 hc).1
    exact rejectionAt?_eq_none_iff.1 (h i (by simpa using hi)) c hc
  · intro h i _
    exact rejectionAt?_eq_none_iff.2 (h i)

/-- Among any requests, a scan that is asked whether it is clean says no if there is a foreign
character in its text, the text has been read, and the rejected characters have not been taken away
since the first request for tokens; and it says yes otherwise. -/
theorem scan_unclean_iff (source : String) (before behind : List ScanRequest) :
    ∃ clean,
      ((Scan.ofString source).answers (before ++ .isClean :: behind))[before.length]? =
        some (.clean clean) ∧
      (clean = false ↔
        (∃ i c, source.toList[i]? = some c ∧ Foreign (source.toList.take i) c) ∧
          .tokenize ∈ before ∧ .takeRejections ∉ before.dropWhile (· != .tokenize)) := by
  refine ⟨_, Serving.answers_getElem? _ before .isClean behind, ?_⟩
  change ((Scan.ofString source).after before).isClean = false ↔ _
  rw [Scan.isClean, List.isEmpty_eq_false_iff, Scan.rejections_after]
  by_cases hkept : .tokenize ∈ before ∧ .takeRejections ∉ before.dropWhile (· != .tokenize)
  · rw [if_pos hkept, ne_eq, newRejections_ofString_eq_nil_iff, and_iff_left hkept]
    simp only [not_forall, not_not, exists_prop]
  · rw [if_neg hkept]
    exact iff_of_false (absurd rfl) fun h => hkept h.2

/-- A scan that has rejected a character is clean again once the rejection has been taken away. -/
theorem scan_clean_after_taking :
    (∃ i c, "@".toList[i]? = some c ∧ Foreign ("@".toList.take i) c) ∧
      (Scan.ofString "@").answers [.tokenize, .takeRejections, .isClean] =
        [.tokens [⟨.eof, ⟨1, 2⟩⟩], .rejections [⟨⟨1, 1⟩, '@', "@"⟩], .clean true] :=
  ⟨⟨0, '@', rfl, by decide⟩, by decide +kernel⟩

end BlockMachine
