import LibSimple.Http.BodyPieces

/-!
# The header counter

Calls on a message in any order, those of the parser among them.  `header_cnt`
is counted up with every header that is added, wherever it comes from;
`httpc_Message_delValue` takes headers out and leaves the counter alone.
-/

namespace LibSimple.Http

open CLang Runs

/-! ## Calls on a message -/

/-- What an `HttpMessage *` points to; `pri_data` is null in a message that the
parser did not make. -/
structure MessageObject where
  msg : HttpMessage
  priData : Option ParserData
  deriving DecidableEq

/-- The undefined operations of calls on a message. -/
inductive CallFault
  /-- a field of a null message -/
  | nullMessage
  /-- `pd->state` with `pri_data` null -/
  | nullPriData
  /-- signed overflow of `bodylen` -/
  | bodylenOverflow
  | parser (f : Fault)
  deriving DecidableEq

inductive MessageCall
  | create
  | setValue (key value : CStr)
  | delValue (key : CStr)
  | appendBody (data : List UInt8)
  | clearBody
  | parse (data : List UInt8)

/-- `httpc_Message_clearBody` -/
def httpcMessageClearBody (msg : HttpMessage) : HttpMessage := { msg with body := [] }

/-- `httpc_Message_appendBody`, when the new `bodylen` is an `int`. -/
def appendBodyCall (msg : HttpMessage) (data : List UInt8) : Except CallFault HttpMessage :=
  if data ≠ [] ∧ intMax < msg.bodylen + data.length then .error .bodylenOverflow
  else .ok (httpcMessageAppendBody msg data).1

/-- `httpc_parser_parse` on a message, with its `pri_data`. -/
def parseCall (saved : Option Parser) (data : List UInt8) :
    Except CallFault (Option MessageObject) :=
  match httpcParserParse saved data with
  | .ok (s, _) => .ok (some ⟨s.msg, some s.pd⟩)
  | .error f => .error (.parser f)

/-- One call; the message is `none` as long as the pointer is null. -/
def messageCall : MessageCall → Option MessageObject → Except CallFault (Option MessageObject)
  | .create, _ => .ok (some ⟨httpcMessageCreate, none⟩)
  | .setValue _ _, none => .error .nullMessage
  | .setValue key value, some m => .ok (some { m with msg := httpcMessageSetValue m.msg key value })
  | .delValue _, none => .error .nullMessage
  | .delValue key, some m => .ok (some { m with msg := httpcMessageDelValue m.msg key })
  | .appendBody _, none => .ok none
  | .appendBody data, some m => do
      let msg ← appendBodyCall m.msg data
      return some { m with msg := msg }
  | .clearBody, none => .ok none
  | .clearBody, some m => .ok (some { m with msg := httpcMessageClearBody m.msg })
  | .parse data, none => parseCall none data
  | .parse _, some ⟨_, none⟩ => .error .nullPriData
  | .parse data, some ⟨msg, some pd⟩ => parseCall (some ⟨msg, pd⟩) data

/-! ## The counter -/

/-- `header_cnt` is the number of headers on the list. -/
def CountsHeaders (msg : HttpMessage) : Prop := msg.headerCnt = msg.headers.length

/-- The counter is right after every call. -/
def CountsThroughout (calls : List MessageCall) : Prop :=
  ∀ pre s, pre <+: calls → run messageCall none pre = .ok s → ∀ m, s = some m → CountsHeaders m.msg

/-- A deletion finds no header to take out. -/
def RemovesNothing : MessageCall → Option MessageObject → Prop
  | .delValue key, some m => ∀ h ∈ m.msg.headers, CStr.eqIgnoreCase h.key key = false
  | _, _ => True

/-- The number of headers is an `int`. -/
def ListFits (s : Option MessageObject) : Prop :=
  ∀ m, s = some m → m.msg.headers.length ≤ intMax

/-- The counter is the number of headers as an `int` has it. -/
def Counted (msg : HttpMessage) : Prop := msg.headerCnt = wrapInt msg.headers.length

theorem counted_create : Counted httpcMessageCreate :=
  (wrapInt_natCast (Nat.zero_le intMax)).symm

theorem wrapInt_of_lt {n : ℕ} (h : intMax < n) : wrapInt (n : ℤ) ≠ n := by
  rw [intMax_eq] at h
  have hlt : wrapInt (n : ℤ) < 2147483648 := Int.bmod_lt (by decide)
  omega

/-- Adding a header and counting it keep step with each other. -/
theorem Counted.setValue {msg : HttpMessage} (h : Counted msg) (key value : CStr) :
    Counted (httpcMessageSetValue msg key value) := by
  rw [Counted] at h
  rw [Counted, httpcMessageSetValue, h, List.length_cons, addInt, wrapInt, wrapInt, wrapInt,
    Nat.cast_succ, Int.bmod_add_bmod]

theorem counted_iff {msg : HttpMessage} (h : Counted msg) :
    CountsHeaders msg ↔ msg.headers.length ≤ intMax := by
  rw [CountsHeaders, h]
  constructor
  · intro heq
    by_contra hlong
    exact wrapInt_of_lt (by omega) heq
  · exact wrapInt_natCast

/-! ## The counter in the parser

The parser may be called in any state here, since other calls may have changed
the message in between. -/

theorem append_yields (c : UInt8) (s : Parser) :
    Yields (fun t => t.msg = s.msg) (append c s) := by
  have hstore : ∀ u : Parser, u.msg = s.msg → Yields (fun t => t.msg = s.msg) (storeChar c u) := by
    intro u hu
    unfold storeChar
    split_ifs
    · exact .ok hu
    · exact .error _
  unfold append
  split_ifs
  · exact .error _
  · exact hstore _ rfl
  · exact hstore s rfl

theorem parseStartLine_yields (s : Parser) :
    Yields (fun t => t.msg.headerCnt = s.msg.headerCnt ∧ t.msg.headers = s.msg.headers)
      (parseStartLine s) := by
  unfold parseStartLine
  intro t ht
  obtain ⟨p1, -, ht⟩ := bind_eq_ok.mp ht
  obtain ⟨p2, -, ht⟩ := bind_eq_ok.mp ht
  obtain ⟨p3, -, ht⟩ := bind_eq_ok.mp ht
  cases ht
  exact ⟨rfl, rfl⟩

theorem parseHeaderLine_yields (s : Parser) :
    Yields (fun t => ∃ key value, t.msg = httpcMessageSetValue s.msg key value)
      (parseHeaderLine s) := by
  unfold parseHeaderLine
  intro t ht
  obtain ⟨⟨key, x⟩, -, ht⟩ := bind_eq_ok.mp ht
  obtain ⟨value, -, ht⟩ := bind_eq_ok.mp ht
  cases key with
  | none => cases ht
  | some key =>
      cases ht
      exact ⟨_, _, rfl⟩

theorem finishLine_yields {s : Parser} (h : Counted s.msg) :
    Yields (fun t => Counted t.msg) (finishLine s) := by
  unfold finishLine
  split_ifs
  · intro t ht
    obtain ⟨hcnt, hheaders⟩ := parseStartLine_yields s t ht
    rw [Counted, hcnt, hheaders]
    exact h
  · intro t ht
    obtain ⟨key, value, hmsg⟩ := parseHeaderLine_yields s t ht
    rw [hmsg]
    exact h.setValue key value

theorem appendByte_yields (c : UInt8) {s : Parser} (h : Counted s.msg) :
    Yields (fun t => Counted t.msg) (appendByte c s) := by
  have happend : ∀ u : Parser, Counted u.msg → Yields (fun t => Counted t.msg) (append c u) := by
    intro u hu t ht
    rw [append_yields c u t ht]
    exact hu
  unfold appendByte
  cases s.pd.state with
  | startline | headers =>
      refine (happend s h).bind fun t ht => ?_
      split_ifs
      · exact .ok ht
      · exact .ok ht
  | cr =>
      refine (happend s h).bind fun t ht => ?_
      split_ifs
      · exact .ok ht
      · exact .ok ht
      · exact .ok ht
      · exact .ok ht
  | crlf =>
      by_cases hblank : isblank c = true
      · simp only [hblank, if_true]
        cases strstrPair cr lf s.pd.linedata with
        | none => exact .error _
        | some r => exact .ok h
      · simp only [hblank]
        refine (finishLine_yields h).bind fun t ht => ?_
        refine (happend (t.setLine []) ht).bind fun u hu => ?_
        split_ifs
        · exact .ok hu
        · exact .ok hu
  | lsw =>
      dsimp only
      split_ifs
      · exact .ok h
      · exact happend (s.setState s.pd.lastState) h
  | body =>
      dsimp only
      split_ifs
      · exact .ok h
      · exact .ok h
  | complete | unknown => exact .ok h

theorem appendBody_yields (p : List UInt8) (len : ℤ) {s : Parser} (h : Counted s.msg) :
    Yields (fun r => Counted r.1.msg) (appendBody p len s) := by
  unfold appendBody
  dsimp only
  split_ifs
  · exact .error _
  · exact .ok h
  · exact .ok h

theorem parseRound_yields {s : Parser} (h : Counted s.msg) (c : UInt8) (rest : List UInt8) :
    Yields (fun r => Counted r.1.msg) (parseRound s c rest) := by
  unfold parseRound
  split_ifs
  · cases httpcMessageGetValue s.msg contentLength with
    | none => exact .error _
    | some v => exact appendBody_yields _ _ h
  · exact (appendByte_yields c h).bind fun t ht => .ok ht

theorem parseLoop_yields (fuel : ℕ) {s : Parser} (h : Counted s.msg) (data : List UInt8)
    (used : ℕ) : Yields (fun r => Counted r.1.msg) (parseLoop fuel s data used) := by
  induction fuel generalizing s data used with
  | zero =>
      cases data with
      | nil => exact .ok h
      | cons c rest =>
          by_cases hdone : s.pd.state = .complete
          · rw [parseLoop, if_pos hdone]
            exact .ok h
          · rw [parseLoop, if_neg hdone]
            exact .error _
  | succ fuel ih =>
      cases data with
      | nil => exact .ok h
      | cons c rest =>
          by_cases hdone : s.pd.state = .complete
          · rw [parseLoop, if_pos hdone]
            exact .ok h
          · rw [parseLoop_succ fuel hdone]
            exact (parseRound_yields h c rest).bind fun r hr => ih hr _ _

theorem parseCall_yields (saved : Option Parser) (data : List UInt8)
    (h : ∀ s, saved = some s → Counted s.msg) :
    Yields (fun t => ∀ m, t = some m → Counted m.msg) (parseCall saved data) := by
  have hstart : Counted (saved.getD parserCreate).msg := by
    cases saved with
    | none => exact counted_create
    | some s => exact h s rfl
  have hyields := parseLoop_yields data.length hstart data 0
  unfold parseCall
  cases hparse : httpcParserParse saved data with
  | error f => exact .error _
  | ok r =>
      refine .ok fun m hm => ?_
      cases hm
      exact hyields r hparse

/-! ## The counter in a run -/

/-- The state in which the counter is right: it has counted every header, and
their number is an `int`. -/
def CountOk (s : Option MessageObject) : Prop :=
  ∀ m, s = some m → Counted m.msg ∧ m.msg.headers.length ≤ intMax

theorem appendBodyCall_yields (msg : HttpMessage) (data : List UInt8) (h : Counted msg) :
    Yields Counted (appendBodyCall msg data) := by
  unfold appendBodyCall
  split_ifs
  · exact .error _
  · refine .ok ?_
    unfold httpcMessageAppendBody
    split_ifs
    · exact h
    · have hbody : Counted { msg with body := msg.body ++ data } := h
      exact hbody.setValue _ _

/-- Every call but a deletion keeps the counter in step. -/
theorem messageCall_yields {c : MessageCall} (hc : ∀ key, c ≠ .delValue key)
    {s : Option MessageObject} (h : ∀ m, s = some m → Counted m.msg) :
    Yields (fun t => ∀ m, t = some m → Counted m.msg) (messageCall c s) := by
  cases c with
  | create =>
      refine .ok fun m hm => ?_
      cases hm
      exact counted_create
  | setValue key value =>
      cases s with
      | none => exact .error _
      | some m =>
          refine .ok fun m' hm => ?_
          cases hm
          exact (h m rfl).setValue key value
  | delValue key => exact absurd rfl (hc key)
  | appendBody data =>
      cases s with
      | none => exact .ok h
      | some m =>
          refine (appendBodyCall_yields m.msg data (h m rfl)).bind fun msg hmsg => ?_
          refine .ok fun m' hm => ?_
          cases hm
          exact hmsg
  | clearBody =>
      cases s with
      | none => exact .ok h
      | some m =>
          refine .ok fun m' hm => ?_
          cases hm
          exact h m rfl
  | parse data =>
      rcases s with _ | ⟨msg, _ | pd⟩
      · exact parseCall_yields none data (by simp)
      · exact .error _
      · refine parseCall_yields (some ⟨msg, pd⟩) data fun s hs => ?_
        cases hs
        exact h _ rfl

/-- The counter is right after a call exactly when the call was no deletion of a
header that there is, and the headers can be counted. -/
theorem counts_iff {c : MessageCall} {s t : Option MessageObject} (hs : CountOk s)
    (ht : messageCall c s = .ok t) :
    (∀ m, t = some m → CountsHeaders m.msg) ↔ RemovesNothing c s ∧ ListFits t := by
  have hkept : (∀ m, t = some m → Counted m.msg) →
      ((∀ m, t = some m → CountsHeaders m.msg) ↔ ListFits t) := by
    intro h
    exact forall_congr' fun m => forall_congr' fun hm => counted_iff (h m hm)
  by_cases hdel : ∃ key, c = .delValue key
  · obtain ⟨key, rfl⟩ := hdel
    cases s with
    | none => cases ht
    | some m =>
        cases ht
        obtain ⟨hcounted, hfits⟩ := hs m rfl
        have hall : CountsHeaders (httpcMessageDelValue m.msg key) ↔
            RemovesNothing (.delValue key) (some m) := by
          rw [CountsHeaders, httpcMessageDelValue, hcounted, wrapInt_natCast hfits,
            Nat.cast_inj, eq_comm, List.length_filter_eq_length_iff, RemovesNothing]
          simp
        have hless : ListFits (some { m with msg := httpcMessageDelValue m.msg key }) := by
          intro m' hm
          cases hm
          exact (List.length_filter_le _ _).trans hfits
        rw [← hall, and_iff_left hless]
        constructor
        · intro h
          exact h _ rfl
        · intro h m' hm
          cases hm
          exact h
  · have hnone : RemovesNothing c s := by
      cases c with
      | delValue key => exact absurd ⟨key, rfl⟩ hdel
      | _ => trivial
    have hnot : ∀ key, c ≠ .delValue key := fun key heq => hdel ⟨key, heq⟩
    rw [hkept (messageCall_yields hnot (fun m hm => (hs m hm).1) t ht), and_iff_right hnone]

theorem countOk_messageCall {c : MessageCall} {s t : Option MessageObject} (hs : CountOk s)
    (hc : RemovesNothing c s ∧ ListFits t) (ht : messageCall c s = .ok t) : CountOk t := by
  intro m hm
  have hright := (counts_iff hs ht).mpr hc m hm
  have hfits := hc.2 m hm
  refine ⟨?_, hfits⟩
  rw [Counted, wrapInt_natCast hfits]
  exact hright

/-- The counter is the number of headers after every call of a run exactly when
no deletion of the run finds a header to take out, and the list never gets too
long for an `int`. -/
theorem countsThroughout_iff (calls : List MessageCall) :
    CountsThroughout calls ↔
      Along messageCall (fun c s t => RemovesNothing c s ∧ ListFits t) none calls := by
  have hiff : ∀ c s t, CountOk s → messageCall c s = .ok t →
      ((∀ m, t = some m → CountsHeaders m.msg) ↔ RemovesNothing c s ∧ ListFits t) :=
    fun c s t hs ht => counts_iff hs ht
  have hkeep : ∀ c s t, CountOk s → (RemovesNothing c s ∧ ListFits t) →
      messageCall c s = .ok t → CountOk t :=
    fun c s t hs hc ht => countOk_messageCall hs hc ht
  have hnull : CountOk none := by simp [CountOk]
  rw [CountsThroughout, forall_reached_iff, along_iff_along hiff hkeep hnull]
  exact and_iff_right (by simp)

/-- A header is set and deleted: the list is empty, and the counter is one. -/
theorem not_countsThroughout_deleted :
    (∃ m, run messageCall none [.create, .setValue getText rootText, .delValue getText] =
        .ok (some m) ∧ m.msg.headers = [] ∧ m.msg.headerCnt = 1) ∧
      ¬ CountsThroughout [.create, .setValue getText rootText, .delValue getText] := by
  have hrun : ∃ m, run messageCall none
      [.create, .setValue getText rootText, .delValue getText] = .ok (some m) ∧
        m.msg.headers = [] ∧ m.msg.headerCnt = 1 :=
    ⟨⟨{ httpcMessageCreate with headerCnt := 1 }, none⟩, by decide +kernel⟩
  refine ⟨hrun, fun h => ?_⟩
  obtain ⟨m, hm, hheaders, hcnt⟩ := hrun
  have hcounts := h _ _ List.prefix_rfl hm m rfl
  rw [CountsHeaders, hheaders, hcnt] at hcounts
  cases hcounts

end LibSimple.Http
