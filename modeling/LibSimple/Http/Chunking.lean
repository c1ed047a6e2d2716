import LibSimple.Http.ByteStep

/-!
# Feeding a stream in pieces

A stream may reach `httpc_parser_parse` in any number of pieces.  The result is
that of feeding its bytes one at a time, also in the body, which a call copies
in bulk while single bytes go through `appendByte`.
-/

namespace LibSimple.Http

open CLang Runs

/-- Feed bytes one at a time to `appendByte` until the state is `HTTP_COMPLETE`,
and count the consumed ones. -/
def appendBytes (s : Parser) : List UInt8 → Except Fault (Parser × ℕ)
  | [] => .ok (s, 0)
  | c :: rest =>
      if s.pd.state = .complete then .ok (s, 0)
      else do
        let s ← appendByte c s
        let (s, used) ← appendBytes s rest
        return (s, used + 1)

/-- Consecutive calls of `httpc_parser_parse`, the message carried over from
call to call and the values of `*used` added up. -/
def parsePieces (saved : Option Parser) : List (List UInt8) → Except Fault (Option Parser × ℕ)
  | [] => .ok (saved, 0)
  | piece :: pieces => do
      let (s, used) ← httpcParserParse saved piece
      let (saved, rest) ← parsePieces (some s) pieces
      return (saved, used + rest)

/-- The values of `saved` that calls starting from a null message can lead to. -/
def Reachable (saved : Option Parser) : Prop :=
  ∃ pieces used, parsePieces none pieces = .ok (saved, used)

/-! ## Feeding single bytes -/

theorem appendBytes_of_complete {s : Parser} (h : s.pd.state = .complete)
    (data : List UInt8) : appendBytes s data = .ok (s, 0) := by
  cases data with
  | nil => rfl
  | cons c rest => rw [appendBytes, if_pos h]

theorem appendBytes_append (s : Parser) (xs ys : List UInt8) :
    appendBytes s (xs ++ ys) = do
      let (s, m) ← appendBytes s xs
      let (s, n) ← appendBytes s ys
      return (s, m + n) := by
  induction xs generalizing s with
  | nil =>
      simp only [List.nil_append, appendBytes, ok_bind, Nat.zero_add]
      cases appendBytes s ys with
      | error f => rfl
      | ok r => rfl
  | cons c xs ih =>
      by_cases hdone : s.pd.state = .complete
      · rw [appendBytes_of_complete hdone, appendBytes_of_complete hdone]
        simp only [ok_bind, appendBytes_of_complete hdone, pure_eq_ok, Nat.add_zero]
      · simp only [List.cons_append, appendBytes, if_neg hdone]
        cases appendByte c s with
        | error f => rfl
        | ok s' =>
            simp only [ok_bind, ih s']
            cases appendBytes s' xs with
            | error f => rfl
            | ok r =>
                simp only [ok_bind, pure_eq_ok]
                cases appendBytes r.1 ys with
                | error f => rfl
                | ok r' => simp only [ok_bind, Nat.add_right_comm]

theorem appendBytes_append_ok {s t u : Parser} {xs ys : List UInt8} {m n : ℕ}
    (hxs : appendBytes s xs = .ok (t, m)) (hys : appendBytes t ys = .ok (u, n)) :
    appendBytes s (xs ++ ys) = .ok (u, m + n) := by
  simp only [appendBytes_append, hxs, hys, ok_bind, pure_eq_ok]

/-- A complete message takes no more bytes, so stopping there and feeding on
are the same to the message. -/
theorem appendBytes_fst (s : Parser) (data : List UInt8) :
    Prod.fst <$> appendBytes s data = run appendByte s data := by
  induction data generalizing s with
  | nil => rfl
  | cons c rest ih =>
      rw [run_cons, appendBytes]
      split_ifs with hdone
      · have hstay : appendByte c s = .ok s := by simp only [appendByte, hdone]
        rw [hstay, ok_bind, ← ih s, appendBytes_of_complete hdone]
      · cases appendByte c s with
        | error f => rfl
        | ok s' =>
            rw [ok_bind, ok_bind, ← ih s']
            cases appendBytes s' rest with
            | error f => rfl
            | ok r => rfl

theorem run_of_appendBytes {s t : Parser} {data : List UInt8} {used : ℕ}
    (h : appendBytes s data = .ok (t, used)) : run appendByte s data = .ok t := by
  rw [← appendBytes_fst, h]
  rfl

theorem appendBytes_of_run {s t : Parser} {data : List UInt8}
    (h : run appendByte s data = .ok t) : ∃ used, appendBytes s data = .ok (t, used) := by
  rw [← appendBytes_fst] at h
  obtain ⟨⟨s', used⟩, hs', rfl⟩ := map_eq_ok.mp h
  exact ⟨used, hs'⟩

/-! ## The body in bulk and by bytes -/

/-- The state after body bytes, whichever way they were stored. -/
def bodyStored (s : Parser) (chunk : List UInt8) : Parser :=
  let s' := s.setBody (s.msg.body ++ chunk)
  if getmsglen s.msg = (s.msg.bodylen + chunk.length : ℕ) then s'.setState .complete else s'

theorem bodylen_setBody (s : Parser) (chunk : List UInt8) :
    (s.setBody (s.msg.body ++ chunk)).msg.bodylen = s.msg.bodylen + chunk.length :=
  List.length_append

theorem appendBody_eq (s : Parser) (data : List UInt8) (k : ℕ) :
    appendBody data k s = .ok (bodyStored s (data.take k), (k : ℤ)) := by
  have hlen : (s.setBody (s.msg.body ++ data.take k)).msg.bodylen =
      s.msg.bodylen + (data.take k).length := bodylen_setBody s _
  rw [appendBody, if_neg (by omega), bodyStored]
  simp only [Int.toNat_natCast, hlen]
  rfl

theorem appendByte_body {c : UInt8} {s : Parser} (hstate : s.pd.state = .body) :
    appendByte c s = .ok (bodyStored s [c]) := by
  simp only [appendByte, hstate, bodyStored, bodylen_setBody]
  rfl

/-- Body bytes that do not reach past the announced length are stored by
`appendByte` as `appendBody` stores them. -/
theorem appendBytes_body {s : Parser} (hstate : s.pd.state = .body) (chunk : List UInt8)
    (hne : chunk ≠ []) (hlen : (s.msg.bodylen + chunk.length : ℕ) ≤ getmsglen s.msg) :
    appendBytes s chunk = .ok (bodyStored s chunk, chunk.length) := by
  induction chunk generalizing s with
  | nil => exact absurd rfl hne
  | cons c chunk ih =>
      rw [appendBytes, if_neg (by rw [hstate]; decide), appendByte_body hstate, ok_bind]
      rw [List.length_cons] at hlen
      cases chunk with
      | nil => rfl
      | cons d chunk =>
          -- one byte more is still to come, so this one does not complete the body
          have hmore : ¬ getmsglen s.msg = (s.msg.bodylen + [c].length : ℕ) := by
            simp only [List.length_cons, List.length_nil] at hlen ⊢
            omega
          have hone : bodyStored s [c] = s.setBody (s.msg.body ++ [c]) := if_neg hmore
          rw [hone, ih (s := s.setBody (s.msg.body ++ [c])) hstate (by simp)
            (by rw [bodylen_setBody]; simpa [Nat.add_assoc, Nat.add_comm 1] using hlen)]
          simp only [ok_bind, pure_eq_ok, List.length_cons]
          rw [bodyStored, bodyStored, bodylen_setBody]
          simp [Nat.add_assoc, Nat.add_comm 1, Parser.setBody, Parser.setMsg]

theorem invariant_appendBytes {s t : Parser} {data : List UInt8} {used : ℕ}
    (hinv : Invariant s) (h : appendBytes s data = .ok (t, used)) : Invariant t :=
  invariant_run hinv (run_of_appendBytes h)

/-! ## The loop of a call -/

/-- A round in the body takes `k > 0` bytes, none of them behind its end. -/
theorem parseRound_body {s : Parser} (hinv : Invariant s) (hbody : s.pd.state = .body)
    (c : UInt8) (rest : List UInt8) :
    ∃ k : ℕ, 0 < k ∧ k ≤ (c :: rest).length ∧ (s.msg.bodylen + k : ℕ) ≤ getmsglen s.msg ∧
      parseRound s c rest = .ok (bodyStored s ((c :: rest).take k), (k : ℤ)) := by
  have hlt := hinv.body hbody
  obtain ⟨v, hv, hatoi⟩ := getValue_of_getmsglen_pos (show 0 < getmsglen s.msg by omega)
  obtain ⟨k, hk, hpos, hle, hmsg⟩ : ∃ k : ℕ,
      (if ((c :: rest).length : ℤ) > atoi v - s.msg.bodylen
        then atoi v - s.msg.bodylen else ((c :: rest).length : ℤ)) = k ∧
      0 < k ∧ k ≤ (c :: rest).length ∧ (s.msg.bodylen + k : ℕ) ≤ getmsglen s.msg := by
    rw [hatoi]
    split_ifs with hlong
    · exact ⟨(getmsglen s.msg - s.msg.bodylen).toNat, by omega, by omega, by omega, by omega⟩
    · refine ⟨(c :: rest).length, rfl, Nat.succ_pos _, le_rfl, ?_⟩
      push_cast at *
      omega
  refine ⟨k, hpos, hle, hmsg, ?_⟩
  simp only [parseRound, if_pos hbody, hv, hk, appendBody_eq]

/-- From a state of the invariant a round takes `k > 0` bytes, and does what
the single bytes do. -/
theorem parseRound_eq {s : Parser} (hinv : Invariant s) (hdone : s.pd.state ≠ .complete)
    (c : UInt8) (rest : List UInt8) :
    ∃ k, 0 < k ∧ k ≤ (c :: rest).length ∧
      parseRound s c rest =
        (fun r => (r.1, (r.2 : ℤ))) <$> appendBytes s ((c :: rest).take k) ∧
      ∀ t n, appendBytes s ((c :: rest).take k) = .ok (t, n) → n = k := by
  by_cases hbody : s.pd.state = .body
  · obtain ⟨k, hpos, hle, hmsg, hround⟩ := parseRound_body hinv hbody c rest
    have htake : ((c :: rest).take k).length = k := by
      rw [List.length_take]
      omega
    have hchunk := appendBytes_body hbody ((c :: rest).take k)
      (by rw [← List.length_pos_iff]; omega) (by rw [htake]; exact hmsg)
    rw [htake] at hchunk
    refine ⟨k, hpos, hle, ?_, ?_⟩
    · rw [hround, hchunk, map_ok]
    · intro t n ht
      rw [hchunk] at ht
      cases ht
      rfl
  · refine ⟨1, Nat.one_pos, Nat.succ_pos _, ?_, ?_⟩
    · simp only [parseRound, if_neg hbody, List.take_succ_cons, List.take_zero, appendBytes,
        if_neg hdone]
      cases appendByte c s with
      | error f => rfl
      | ok t => rfl
    · intro t n ht
      simp only [List.take_succ_cons, List.take_zero, appendBytes, if_neg hdone] at ht
      obtain ⟨u, -, hu⟩ := bind_eq_ok.mp ht
      cases hu
      rfl

/-- The loop does what the single bytes do. -/
theorem parseLoop_eq {s : Parser} (hinv : Invariant s) {fuel : ℕ} {data : List UInt8}
    (hfuel : data.length ≤ fuel) (used : ℕ) :
    parseLoop fuel s data used =
      (fun r => (r.1, used + r.2)) <$> appendBytes s data := by
  induction fuel generalizing s data used with
  | zero =>
      rw [List.eq_nil_of_length_eq_zero (Nat.le_zero.mp hfuel)]
      rfl
  | succ fuel ih =>
      cases data with
      | nil => rfl
      | cons c rest =>
          by_cases hdone : s.pd.state = .complete
          · rw [parseLoop, if_pos hdone, appendBytes_of_complete hdone]
            rfl
          · obtain ⟨k, hpos, hle, hround, hused⟩ := parseRound_eq hinv hdone c rest
            have hsplit : appendBytes s (c :: rest) =
                appendBytes s ((c :: rest).take k ++ (c :: rest).drop k) := by
              rw [List.take_append_drop]
            rw [parseLoop_succ fuel hdone, hround, hsplit, appendBytes_append]
            cases hchunk : appendBytes s ((c :: rest).take k) with
            | error f => rfl
            | ok r =>
                obtain rfl : r.2 = k := hused r.1 r.2 hchunk
                have hdrop : ((c :: rest).drop r.2).length ≤ fuel := by
                  rw [List.length_drop]
                  omega
                simp only [map_ok, ok_bind, Int.toNat_natCast]
                rw [ih (invariant_appendBytes hinv hchunk) hdrop]
                cases appendBytes r.1 ((c :: rest).drop r.2) with
                | error f => rfl
                | ok r' => simp [Nat.add_assoc]

theorem httpcParserParse_eq {saved : Option Parser} (hinv : Invariant (saved.getD parserCreate))
    (data : List UInt8) :
    httpcParserParse saved data = appendBytes (saved.getD parserCreate) data := by
  rw [httpcParserParse, parseLoop_eq hinv le_rfl]
  cases appendBytes (saved.getD parserCreate) data with
  | error f => rfl
  | ok r => simp

theorem httpcParserParse_none (data : List UInt8) :
    httpcParserParse none data = appendBytes parserCreate data :=
  @httpcParserParse_eq none invariant_parserCreate data

/-! ## Pieces -/

theorem parsePieces_eq {saved : Option Parser} (hinv : Invariant (saved.getD parserCreate))
    {pieces : List (List UInt8)} (hcalled : saved = none → pieces ≠ []) :
    parsePieces saved pieces =
      (fun r => (some r.1, r.2)) <$> appendBytes (saved.getD parserCreate) pieces.flatten := by
  induction pieces generalizing saved with
  | nil =>
      obtain ⟨s, rfl⟩ := Option.ne_none_iff_exists'.mp fun h => hcalled h rfl
      rfl
  | cons piece pieces ih =>
      rw [parsePieces, List.flatten_cons, appendBytes_append, httpcParserParse_eq hinv]
      cases hpiece : appendBytes (saved.getD parserCreate) piece with
      | error f => rfl
      | ok r =>
          have hinv' : Invariant ((some r.1).getD parserCreate) :=
            invariant_appendBytes hinv hpiece
          simp only [ok_bind]
          rw [ih hinv' (by simp)]
          simp only [Option.getD_some]
          cases appendBytes r.1 pieces.flatten with
          | error f => rfl
          | ok r' => rfl

theorem parsePieces_none {pieces : List (List UInt8)} (hne : pieces ≠ []) :
    parsePieces none pieces =
      (fun r => (some r.1, r.2)) <$> appendBytes parserCreate pieces.flatten :=
  @parsePieces_eq none invariant_parserCreate pieces fun _ => hne

theorem invariant_of_reachable {saved : Option Parser} (h : Reachable saved) :
    Invariant (saved.getD parserCreate) := by
  obtain ⟨pieces, used, hpieces⟩ := h
  cases pieces with
  | nil =>
      cases hpieces
      exact invariant_parserCreate
  | cons piece pieces =>
      rw [parsePieces_none (List.cons_ne_nil piece pieces)] at hpieces
      obtain ⟨⟨s, n⟩, hs, heq⟩ := map_eq_ok.mp hpieces
      cases heq
      exact invariant_appendBytes invariant_parserCreate hs

theorem parsePieces_append (saved : Option Parser) (xs ys : List (List UInt8)) :
    parsePieces saved (xs ++ ys) = do
      let (saved, m) ← parsePieces saved xs
      let (saved, n) ← parsePieces saved ys
      return (saved, m + n) := by
  induction xs generalizing saved with
  | nil =>
      simp only [List.nil_append, parsePieces, ok_bind, Nat.zero_add]
      cases parsePieces saved ys with
      | error f => rfl
      | ok r => rfl
  | cons piece xs ih =>
      simp only [List.cons_append, parsePieces, ih]
      cases httpcParserParse saved piece with
      | error f => rfl
      | ok r =>
          simp only [ok_bind]
          cases parsePieces (some r.1) xs with
          | error f => rfl
          | ok r' =>
              simp only [ok_bind, pure_eq_ok]
              cases parsePieces r'.1 ys with
              | error f => rfl
              | ok r'' => simp only [ok_bind, Nat.add_assoc]

theorem Reachable.start : Reachable none := ⟨[], 0, rfl⟩

/-- What one more call leads to can be reached. -/
theorem Reachable.parse {saved : Option Parser} (h : Reachable saved) {data : List UInt8}
    {s : Parser} {used : ℕ} (hs : httpcParserParse saved data = .ok (s, used)) :
    Reachable (some s) := by
  obtain ⟨pieces, m, hpieces⟩ := h
  refine ⟨pieces ++ [data], m + used, ?_⟩
  simp only [parsePieces_append, hpieces, parsePieces, hs, ok_bind, pure_eq_ok, Nat.add_zero]

theorem invariant_start : Invariant ((none : Option Parser).getD parserCreate) :=
  invariant_parserCreate

theorem run_of_parsePieces {saved : Option Parser} (hinv : Invariant (saved.getD parserCreate))
    {pieces : List (List UInt8)} {s : Parser} {used : ℕ}
    (h : parsePieces saved pieces = .ok (some s, used)) :
    run appendByte (saved.getD parserCreate) pieces.flatten = .ok s := by
  by_cases hnil : saved = none ∧ pieces = []
  · obtain ⟨rfl, rfl⟩ := hnil
    cases h
  · rw [parsePieces_eq hinv fun hnone hpieces => hnil ⟨hnone, hpieces⟩] at h
    obtain ⟨⟨t, n⟩, ht, heq⟩ := map_eq_ok.mp h
    cases heq
    exact run_of_appendBytes ht

/-- A stream that single bytes handle is handled by one call. -/
theorem parsePieces_of_run {saved : Option Parser} (hinv : Invariant (saved.getD parserCreate))
    {data : List UInt8} {s : Parser}
    (h : run appendByte (saved.getD parserCreate) data = .ok s) :
    ∃ used, parsePieces saved [data] = .ok (some s, used) := by
  obtain ⟨used, hused⟩ := appendBytes_of_run h
  refine ⟨used, ?_⟩
  rw [parsePieces_eq hinv fun _ => List.cons_ne_nil data [], List.flatten_singleton, hused, map_ok]

/-- The state `s` is left by calls on pieces that make up a front of the stream. -/
def ReachedOn (data : List UInt8) (s : Parser) : Prop :=
  ∃ pieces used, pieces.flatten <+: data ∧ parsePieces none pieces = .ok (some s, used)

theorem reachedOn_iff {data : List UInt8} {s : Parser} :
    ReachedOn data s ↔ ∃ pre, pre <+: data ∧ run appendByte parserCreate pre = .ok s := by
  constructor
  · rintro ⟨pieces, used, hpre, hpieces⟩
    exact ⟨_, hpre, run_of_parsePieces invariant_start hpieces⟩
  · rintro ⟨pre, hpre, hs⟩
    obtain ⟨used, hused⟩ := @parsePieces_of_run none invariant_start pre s hs
    exact ⟨[pre], used, by simpa using hpre, hused⟩

theorem forall_reachedOn_iff {P : Parser → Prop} {data : List UInt8} :
    (∀ s, ReachedOn data s → P s) ↔
      P parserCreate ∧ Along appendByte (fun _ _ t => P t) parserCreate data := by
  rw [← forall_reached_iff]
  constructor
  · intro h pre t hpre ht
    exact h t (reachedOn_iff.mpr ⟨pre, hpre, ht⟩)
  · intro h s hs
    obtain ⟨pre, hpre, ht⟩ := reachedOn_iff.mp hs
    exact h pre s hpre ht

/-- Calls on a front of the stream lead to `s`, and further calls to `t`. -/
def Continues (data : List UInt8) (s t : Parser) : Prop :=
  ∃ first next m n, first.flatten ++ next.flatten <+: data ∧
    parsePieces none first = .ok (some s, m) ∧ parsePieces (some s) next = .ok (some t, n)

theorem continues_iff {data : List UInt8} {s t : Parser} :
    Continues data s t ↔ ∃ pre post, pre ++ post <+: data ∧
      run appendByte parserCreate pre = .ok s ∧ run appendByte s post = .ok t := by
  constructor
  · rintro ⟨first, next, m, n, hpre, hfirst, hnext⟩
    have hinv := invariant_of_reachable ⟨first, m, hfirst⟩
    exact ⟨_, _, hpre, run_of_parsePieces invariant_start hfirst, run_of_parsePieces hinv hnext⟩
  · rintro ⟨pre, post, hpre, hs, ht⟩
    have hinv := invariant_run invariant_parserCreate hs
    obtain ⟨m, hm⟩ := @parsePieces_of_run none invariant_start pre s hs
    obtain ⟨n, hn⟩ := @parsePieces_of_run (some s) hinv post t ht
    exact ⟨[pre], [post], m, n, by simpa using hpre, hm, hn⟩

/-- However a stream is cut into pieces, the message and the number of consumed
bytes are those of one call on the whole stream, and those of the single bytes;
an error occurs on all three sides or on none.  No piece at all is no call. -/
theorem parsePieces_eq_parse (saved : Option Parser) (hreach : Reachable saved)
    (pieces : List (List UInt8)) :
    parsePieces saved pieces =
        (fun r => (if pieces = [] then saved else some r.1, r.2)) <$>
          httpcParserParse saved pieces.flatten ∧
      httpcParserParse saved pieces.flatten =
        appendBytes (saved.getD parserCreate) pieces.flatten := by
  have hinv := invariant_of_reachable hreach
  have hparse := httpcParserParse_eq hinv pieces.flatten
  refine ⟨?_, hparse⟩
  by_cases hnil : pieces = []
  · subst hnil
    rfl
  · rw [hparse, parsePieces_eq hinv fun _ => hnil]
    simp only [if_neg hnil]

/-- A message whose pieces cut a CR LF and the body. -/
theorem parsePieces_eq_parse_post :
    let pieces := [bytes ['P', ' ', '/', ' ', 'H'] ++ [cr],
      lf :: contentLength.val ++ bytes [':', '3'] ++ [cr, lf, cr, lf] ++ bytes ['a'],
      [], bytes ['b', 'c']]
    parsePieces none pieces =
        (fun r => (if pieces = [] then none else some r.1, r.2)) <$>
          httpcParserParse none pieces.flatten ∧
      httpcParserParse none pieces.flatten = appendBytes parserCreate pieces.flatten :=
  parsePieces_eq_parse none ⟨[], 0, rfl⟩ _

end LibSimple.Http
