import LibSimple.Http.Chunking

/-!
# Framing of the body

How many bytes a call of `httpc_parser_parse` takes, and where it stops.  The
loop makes progress because the announced length exceeds the number of stored
bytes as long as the state is `HTTP_BODY`.
-/

namespace LibSimple.Http

open CLang Runs

/-- The stored body against the announced length, in every state. -/
structure Framed (s : Parser) : Prop where
  body : s.pd.state = .body →
    0 ≤ (s.msg.bodylen : ℤ) ∧ (s.msg.bodylen : ℤ) < getmsglen s.msg
  complete : s.pd.state = .complete → (s.msg.bodylen : ℤ) = max 0 (getmsglen s.msg)
  other : s.pd.state ≠ .body → s.pd.state ≠ .complete → s.msg.bodylen = 0

/-- Every round of the loop that starts in this state either fails in
`appendByte` or takes at least one byte, and no more than there are; what it
leads to can be reached by calls. -/
def RoundAdvances (s : Parser) : Prop :=
  ∀ c rest, s.pd.state ≠ .complete →
    (∃ f, parseRound s c rest = .error f ∧ appendByte c s = .error f) ∨
      ∃ t rc, parseRound s c rest = .ok (t, rc) ∧ 0 < rc ∧ rc ≤ (c :: rest).length ∧
        Reachable (some t)

/-- The call ends, with a message or with an error of a line: any number of
rounds from the length of the data up gives the same.  It stops early in a
complete message only. -/
structure CallEnds (saved : Option Parser) (data : List UInt8) : Prop where
  rounds : ∀ n, data.length ≤ n →
    parseLoop n (saved.getD parserCreate) data 0 = httpcParserParse saved data
  failsIn : FailsIn Fault.OfLine (httpcParserParse saved data)
  used : ∀ t used, httpcParserParse saved data = .ok (t, used) →
    0 ≤ used ∧ used ≤ data.length ∧ (used < data.length → t.pd.state = .complete)
  complete : (saved.getD parserCreate).pd.state = .complete →
    httpcParserParse saved data = .ok (saved.getD parserCreate, 0)

theorem Invariant.framed {s : Parser} (hinv : Invariant s) : Framed s where
  body h := ⟨Int.natCast_nonneg _, hinv.body h⟩
  complete := hinv.complete
  other hbody hcomplete := by
    rw [HttpMessage.bodylen, hinv.header hbody hcomplete, List.length_nil]

/-! ## Single bytes -/

theorem appendBytes_failsIn (s : Parser) (data : List UInt8) :
    FailsIn Fault.OfLine (appendBytes s data) := by
  induction data generalizing s with
  | nil => exact .ok _
  | cons c rest ih =>
      unfold appendBytes
      split_ifs with hdone
      · exact .ok _
      · apply FailsIn.bind (appendByte_failsIn c s)
        intro t
        apply FailsIn.bind (ih t)
        intro r
        exact .ok _

/-- Bytes are left over only by a complete message. -/
theorem used_of_appendBytes {s t : Parser} {data : List UInt8} {used : ℕ}
    (h : appendBytes s data = .ok (t, used)) :
    used ≤ data.length ∧ (used < data.length → t.pd.state = .complete) := by
  induction data generalizing s used with
  | nil =>
      cases h
      exact ⟨le_rfl, fun hlt => absurd hlt (Nat.lt_irrefl 0)⟩
  | cons c rest ih =>
      rw [appendBytes] at h
      split_ifs at h with hdone
      · cases h
        exact ⟨Nat.zero_le _, fun _ => hdone⟩
      · obtain ⟨u, -, h⟩ := bind_eq_ok.mp h
        obtain ⟨⟨v, n⟩, hrest, h⟩ := bind_eq_ok.mp h
        cases h
        obtain ⟨hle, hdone'⟩ := ih hrest
        exact ⟨Nat.succ_le_succ hle, fun hlt => hdone' (Nat.lt_of_succ_lt_succ hlt)⟩

/-! ## Rounds and calls -/

theorem reachable_of_appendBytes {saved : Option Parser} (h : Reachable saved)
    {data : List UInt8} {t : Parser} {used : ℕ}
    (ht : appendBytes (saved.getD parserCreate) data = .ok (t, used)) :
    Reachable (some t) := by
  have hparse := httpcParserParse_eq (invariant_of_reachable h) data
  exact h.parse (hparse.trans ht)

theorem roundAdvances_of_reachable {saved : Option Parser} (h : Reachable saved) :
    RoundAdvances (saved.getD parserCreate) := by
  intro c rest hdone
  have hinv := invariant_of_reachable h
  obtain ⟨k, hpos, hle, hround, hused⟩ := parseRound_eq hinv hdone c rest
  cases hbytes : appendBytes (saved.getD parserCreate) ((c :: rest).take k) with
  | ok r =>
      obtain rfl : r.2 = k := hused r.1 r.2 hbytes
      refine Or.inr ⟨r.1, r.2, ?_, ?_, ?_, reachable_of_appendBytes h hbytes⟩
      · rw [hround, hbytes, map_ok]
      · exact Int.natCast_pos.mpr hpos
      · exact Int.ofNat_le.mpr hle
  | error f =>
      have hbody : (saved.getD parserCreate).pd.state ≠ .body := by
        intro hbody
        obtain ⟨m, -, -, -, hok⟩ := parseRound_body hinv hbody c rest
        rw [hround, hbytes] at hok
        cases hok
      refine Or.inl ⟨f, by rw [hround, hbytes, map_error], ?_⟩
      rw [parseRound, if_neg hbody, hbytes, map_error] at hround
      cases hc : appendByte c (saved.getD parserCreate) with
      | ok t =>
          rw [hc] at hround
          cases hround
      | error g =>
          rw [hc] at hround
          cases hround
          rfl

theorem callEnds_of_reachable {saved : Option Parser} (h : Reachable saved)
    (data : List UInt8) : CallEnds saved data := by
  have hinv := invariant_of_reachable h
  have hparse := httpcParserParse_eq hinv data
  constructor
  case rounds =>
    intro n hn
    rw [httpcParserParse, parseLoop_eq hinv hn, parseLoop_eq hinv le_rfl]
  case failsIn =>
    rw [hparse]
    exact appendBytes_failsIn _ _
  case used =>
    intro t used ht
    rw [hparse] at ht
    exact ⟨Nat.zero_le used, used_of_appendBytes ht⟩
  case complete =>
    intro hdone
    rw [hparse, appendBytes_of_complete hdone]

/-- In every state that calls can reach the body is framed by the announced
length, each round of the loop takes a byte, and a further call ends. -/
theorem framing_of_reachable (saved : Option Parser) (h : Reachable saved)
    (data : List UInt8) :
    Framed (saved.getD parserCreate) ∧ RoundAdvances (saved.getD parserCreate) ∧
      CallEnds saved data :=
  ⟨(invariant_of_reachable h).framed, roundAdvances_of_reachable h, callEnds_of_reachable h data⟩

/-- A message up to the first of its three body bytes. -/
def postFront : List UInt8 :=
  bytes ['P', ' ', '/', ' ', 'H'] ++ [cr, lf] ++ contentLength.val ++ bytes [':', '3'] ++
    [cr, lf, cr, lf] ++ bytes ['a']

/-- A call that ends inside the body, and the next one, which also gets bytes of
a second message. -/
theorem framing_of_reachable_post :
    let saved := (httpcParserParse none postFront).toOption.map Prod.fst
    (saved.getD parserCreate).pd.state = .body ∧
      Framed (saved.getD parserCreate) ∧ RoundAdvances (saved.getD parserCreate) ∧
        CallEnds saved (bytes ['b', 'c', 'P', ' ']) :=
  ⟨by decide +kernel, framing_of_reachable _ ⟨[postFront], 28, by decide +kernel⟩ _⟩

end LibSimple.Http
