import LibSimple.Http.LengthLimit
import LibSimple.Httpsrv.FileFraming
import LibSimple.Httpsrv.FilenameSafety

/-!
# A connection of `httpsrv`

`handle` of `client.c`: a request is taken from the socket byte by byte, answered, and the
socket is closed.  The bytes that the client sends are a list; behind its end `recv` reports
that the connection is closed, or an error.
-/

namespace LibSimple.Httpsrv

open CLang PosixRegex Url Http Runs

/-! ## The code -/

/-- What a server has around it. -/
structure Env where
  regexec : List UInt8 → List UInt8 → Option (ℕ → RegMatch)
  rootPath : CStr
  stat : CStr → Option ℕ
  stSize : CStr → ℕ
  fopen : CStr → Option (Stream' Fread)

/-- The two states in which `make_request` stops. -/
def requestState (st : HttpParserState) : Bool := st = .complete || st = .body

/-- The loop of `make_request`, with what it leaves in the socket. -/
def makeRequestLoop (req : Option Parser) :
    List UInt8 → Except Fault (Option Parser × List UInt8)
  | [] => .ok (req, [])
  | ch :: rest => do
      let (req, _) ← httpcParserParse req [ch]
      if requestState req.pd.state then return (some req, rest)
      else makeRequestLoop (some req) rest

/-- `make_request`, with what it leaves in the socket. -/
def makeRequest (recv : List UInt8) : Except Fault (Option Parser × List UInt8) := do
  let (req, rest) ← makeRequestLoop none recv
  return (req.filter fun req => requestState req.pd.state, rest)

/-- `send_res` -/
def sendRes (res : HttpMessage) (sends : Stream' ℤ) : Option Sent := do
  let buf ← encodedBuffer res true
  some (sendData buf sends)

/-- What `http_request` sends for its answer, and `send_res` behind it where it has sent
nothing. -/
def sendAnswer (env : Env) (res : HttpMessage) (sends : Stream' ℤ) (fuel : ℕ) :
    Answer → Option Sent
  | .localFile filename =>
      sendLocalFileTo res filename (env.stSize filename) (env.fopen filename) sends fuel
  | .notFound filename => sendRes (ret404 res filename) sends

/-- `handle`, with the bytes that the client gets before the socket is closed; `none` when
an operation on the way is undefined, or the fuel for copying a file is used up. -/
def handle (env : Env) (recv : List UInt8) (sends : Stream' ℤ) (fuel : ℕ) :
    Option (List UInt8) :=
  match makeRequest recv with
  | .error _ => none
  | .ok (none, _) => some []
  | .ok (some req, _) => do
      let target ← req.msg.startLine.p2
      match ← handleHttp env.regexec env.rootPath env.stat target with
      | none => some []
      | some answer => (sendAnswer env makeDefaultResponse sends fuel answer).map Sent.bytes

/-! ## Taking a request -/

theorem requestState_iff {s : Parser} : requestState s.pd.state = true ↔ Left s := by
  rw [requestState, Bool.or_eq_true, decide_eq_true_iff, decide_eq_true_iff, Left, or_comm]

/-- One byte goes through the parser as it goes through `appendByte`. -/
theorem httpcParserParse_byte {saved : Option Parser} (hinv : Invariant (saved.getD parserCreate))
    (hopen : ¬ Left (saved.getD parserCreate)) (ch : UInt8) :
    httpcParserParse saved [ch] =
      (fun s => (s, 1)) <$> appendByte ch (saved.getD parserCreate) := by
  have hdone : (saved.getD parserCreate).pd.state ≠ .complete := fun h => hopen (Or.inr h)
  rw [httpcParserParse_eq hinv, appendBytes, if_neg hdone]
  cases appendByte ch (saved.getD parserCreate) with
  | error f => rfl
  | ok s => rfl

/-- Up to the byte that ends the head, the loop takes every byte. -/
theorem makeRequestLoop_head {saved : Option Parser} (hinv : Invariant (saved.getD parserCreate))
    {pre rest : List UInt8} {ch : UInt8} {u s : Parser}
    (hu : run appendByte (saved.getD parserCreate) pre = .ok u) (hopen : ¬ Left u)
    (hs : appendByte ch u = .ok s) (hleft : Left s) :
    makeRequestLoop saved (pre ++ ch :: rest) = .ok (some s, rest) := by
  induction pre generalizing saved with
  | nil =>
      obtain rfl : saved.getD parserCreate = u := Except.ok.inj hu
      rw [List.nil_append, makeRequestLoop, httpcParserParse_byte hinv hopen, hs]
      show (if requestState s.pd.state = true then _ else _) = _
      rw [if_pos (requestState_iff.mpr hleft)]
      rfl
  | cons c pre ih =>
      obtain ⟨t, ht, hrun⟩ := run_cons_eq_ok hu
      have htopen : ¬ Left t := fun h => hopen (left_run h hrun)
      have hsopen : ¬ Left (saved.getD parserCreate) := fun h =>
        htopen (left_appendByte c _ t h ht)
      rw [List.cons_append, makeRequestLoop, httpcParserParse_byte hinv hsopen, ht]
      show (if requestState t.pd.state = true then _ else _) = _
      rw [if_neg (mt requestState_iff.mp htopen)]
      exact ih (invariant_appendByte c _ t hinv ht) hrun

/-- A stream that ends inside the head is read to its end, and there is no request. -/
theorem makeRequestLoop_open {saved : Option Parser} (hinv : Invariant (saved.getD parserCreate))
    {data : List UInt8} {u : Parser}
    (hu : run appendByte (saved.getD parserCreate) data = .ok u) (hopen : ¬ Left u) :
    ∃ req, makeRequestLoop saved data = .ok (req, []) ∧
      (req.filter fun req => requestState req.pd.state) = none := by
  induction data generalizing saved with
  | nil =>
      obtain rfl : saved.getD parserCreate = u := Except.ok.inj hu
      refine ⟨saved, rfl, ?_⟩
      cases saved with
      | none => rfl
      | some s =>
          have hstate : ¬ requestState s.pd.state = true := mt requestState_iff.mp hopen
          rw [Option.filter_some, if_neg hstate]
  | cons c data ih =>
      obtain ⟨t, ht, hrun⟩ := run_cons_eq_ok hu
      have htopen : ¬ Left t := fun h => hopen (left_run h hrun)
      have hsopen : ¬ Left (saved.getD parserCreate) := fun h =>
        htopen (left_appendByte c _ t h ht)
      obtain ⟨req, hreq, hnone⟩ := @ih (some t) (invariant_appendByte c _ t hinv ht) hrun
      refine ⟨req, ?_, hnone⟩
      rw [makeRequestLoop, httpcParserParse_byte hinv hsopen, ht]
      show (if requestState t.pd.state = true then _ else _) = _
      rw [if_neg (mt requestState_iff.mp htopen)]
      exact hreq

/-- What a stream is to a parser that is not behind the head: the head ends in it, it ends
inside the head, or something in the head cannot be parsed. -/
inductive Heads (s : Parser) : List UInt8 → Prop
  | ends {pre rest ch u t} (hu : run appendByte s pre = .ok u) (hopen : ¬ Left u)
      (ht : appendByte ch u = .ok t) (hleft : Left t) : Heads s (pre ++ ch :: rest)
  | stays {data u} (hu : run appendByte s data = .ok u) (hopen : ¬ Left u) : Heads s data
  | fails {pre rest ch u f} (hu : run appendByte s pre = .ok u) (hopen : ¬ Left u)
      (hf : appendByte ch u = .error f) : Heads s (pre ++ ch :: rest)

theorem heads {s : Parser} (hopen : ¬ Left s) (data : List UInt8) : Heads s data := by
  induction data generalizing s with
  | nil => exact .stays rfl hopen
  | cons c data ih =>
      cases hc : appendByte c s with
      | error f => exact @Heads.fails s [] data c s f rfl hopen hc
      | ok t =>
          by_cases hleft : Left t
          · exact @Heads.ends s [] data c s t rfl hopen hc hleft
          · cases ih hleft with
            | @ends pre rest ch u v hu huopen ht hvleft =>
                rw [← List.cons_append]
                exact .ends (by rw [run_cons_ok hc, hu]) huopen ht hvleft
            | @stays _ u hu huopen => exact .stays (by rw [run_cons_ok hc, hu]) huopen
            | @fails pre rest ch u f hu huopen hf =>
                rw [← List.cons_append]
                exact .fails (by rw [run_cons_ok hc, hu]) huopen hf

/-- The loop fails with the first byte of the head that cannot be parsed. -/
theorem makeRequestLoop_fails {saved : Option Parser}
    (hinv : Invariant (saved.getD parserCreate)) {pre rest : List UInt8} {ch : UInt8}
    {u : Parser} {f : Fault} (hu : run appendByte (saved.getD parserCreate) pre = .ok u)
    (hopen : ¬ Left u) (hf : appendByte ch u = .error f) :
    makeRequestLoop saved (pre ++ ch :: rest) = .error f := by
  induction pre generalizing saved with
  | nil =>
      obtain rfl : saved.getD parserCreate = u := Except.ok.inj hu
      rw [List.nil_append, makeRequestLoop, httpcParserParse_byte hinv hopen, hf]
      rfl
  | cons c pre ih =>
      obtain ⟨t, ht, hrun⟩ := run_cons_eq_ok hu
      have htopen : ¬ Left t := fun h => hopen (left_run h hrun)
      have hsopen : ¬ Left (saved.getD parserCreate) := fun h =>
        htopen (left_appendByte c _ t h ht)
      rw [List.cons_append, makeRequestLoop, httpcParserParse_byte hinv hsopen, ht]
      show (if requestState t.pd.state = true then _ else _) = _
      rw [if_neg (mt requestState_iff.mp htopen)]
      exact ih (invariant_appendByte c _ t hinv ht) hrun

theorem not_left_parserCreate : ¬ Left parserCreate := by
  rintro (h | h)
  · cases h
  · cases h

/-- The last byte of a head. -/
theorem exists_last_of_headEnds {head : List UInt8} {s : Parser} (h : HeadEnds head s) :
    ∃ pre ch u, head = pre ++ [ch] ∧ run appendByte parserCreate pre = .ok u ∧ ¬ Left u ∧
      appendByte ch u = .ok s := by
  have hparsed := h.parsed
  rw [httpcParserParse_none] at hparsed
  have hrun := run_of_appendBytes hparsed
  rcases List.eq_nil_or_concat head with rfl | ⟨pre, c, rfl⟩
  · obtain rfl := Except.ok.inj hrun
    exact absurd h.left not_left_parserCreate
  · rw [List.concat_eq_append] at hrun h
    obtain ⟨u, hu, hc⟩ := run_concat_eq_ok hrun
    refine ⟨pre, c, u, List.concat_eq_append, hu, ?_, hc⟩
    have hfirst := h.first pre.length (by simp)
    rwa [List.take_left, leavesHeaders_iff hu] at hfirst

theorem headEnds_of_last {pre : List UInt8} {ch : UInt8} {u s : Parser}
    (hu : run appendByte parserCreate pre = .ok u) (hopen : ¬ Left u)
    (hs : appendByte ch u = .ok s) (hleft : Left s) : HeadEnds (pre ++ [ch]) s where
  parsed := by
    have hpre := appendBytes_of_run_incomplete hu fun h => hopen (Or.inr h)
    have hlast : appendBytes u [ch] = .ok (s, 1) := by
      rw [appendBytes, if_neg fun h => hopen (Or.inr h), hs]
      rfl
    rw [httpcParserParse_none, appendBytes_append_ok hpre hlast, List.length_append,
      List.length_singleton]
  left := hleft
  first := by
    intro k hk
    rw [List.length_append, List.length_singleton] at hk
    obtain ⟨more, hmore⟩ := List.take_prefix k pre
    rw [List.take_append_of_le_length (Nat.le_of_lt_succ hk)]
    rw [← hmore] at hu
    obtain ⟨v, hv, hrest⟩ := run_append_eq_ok hu
    rw [leavesHeaders_iff hv]
    exact fun h => hopen (left_run h hrest)

theorem makeRequest_head {pre rest : List UInt8} {ch : UInt8} {u s : Parser}
    (hu : run appendByte parserCreate pre = .ok u) (hopen : ¬ Left u)
    (hs : appendByte ch u = .ok s) (hleft : Left s) :
    makeRequest (pre ++ ch :: rest) = .ok (some s, rest) := by
  have hloop := @makeRequestLoop_head none invariant_parserCreate pre rest ch u s hu hopen hs hleft
  have hstate : requestState s.pd.state = true := requestState_iff.mpr hleft
  rw [makeRequest, hloop, ok_bind]
  dsimp only
  rw [Option.filter_some, if_pos hstate]
  rfl

theorem makeRequest_open {data : List UInt8} {u : Parser}
    (hu : run appendByte parserCreate data = .ok u) (hopen : ¬ Left u) :
    makeRequest data = .ok (none, []) := by
  obtain ⟨req, hreq, hnone⟩ := @makeRequestLoop_open none invariant_parserCreate data u hu hopen
  rw [makeRequest, hreq, ok_bind]
  dsimp only
  rw [hnone]
  rfl

theorem makeRequest_fails {pre rest : List UInt8} {ch : UInt8} {u : Parser} {f : Fault}
    (hu : run appendByte parserCreate pre = .ok u) (hopen : ¬ Left u)
    (hf : appendByte ch u = .error f) : makeRequest (pre ++ ch :: rest) = .error f := by
  rw [makeRequest, @makeRequestLoop_fails none invariant_parserCreate pre rest ch u f hu hopen hf]
  rfl

theorem makeRequest_of_headEnds {head : List UInt8} {req : Parser} (hhead : HeadEnds head req)
    (rest : List UInt8) : makeRequest (head ++ rest) = .ok (some req, rest) := by
  obtain ⟨pre, ch, u, rfl, hu, hopen, hs⟩ := exists_last_of_headEnds hhead
  rw [List.append_assoc, List.singleton_append]
  exact makeRequest_head hu hopen hs hhead.left

/-- The target of a request is one that `simple_url_parse` can take apart. -/
theorem strlen_target_le {head : List UInt8} {req : Parser} {target : CStr}
    (hhead : HeadEnds head req) (htarget : req.msg.startLine.p2 = some target) :
    target.strlen + 4 ≤ intMax :=
  (targetFits_of_parse hhead.parsed).strlen_le htarget

end LibSimple.Httpsrv
