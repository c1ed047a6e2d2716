import LibSimple.Http.HeaderCount

/-!
# The announced length of a body

Calls of `httpc_Message_appendBody` and `httpc_Message_clearBody` in any order.
The length of the body is kept in `bodylen` and announced by a header;
`httpc_Message_clearBody` forgets the header, and each further piece adds one.
-/

namespace LibSimple.Http

open CLang Runs

inductive BodyCall
  | append (data : List UInt8)
  | clear

def bodyCall : BodyCall → HttpMessage → Except CallFault HttpMessage
  | .append data, msg => appendBodyCall msg data
  | .clear, msg => .ok (httpcMessageClearBody msg)

/-- A header that announces the length of the body. -/
def AnnouncesLength (h : HttpHeader) : Prop := CStr.eqIgnoreCase h.key contentLength = true

/-- A message without a body and without a `Content-Length`. -/
structure Fresh (msg : HttpMessage) : Prop where
  body : msg.body = []
  headers : ∀ h ∈ msg.headers, ¬ AnnouncesLength h

/-- The `Content-Length` that `httpc_Message_getValue` reports, 0 without one, is
the length of the body. -/
def ReportsBody (msg : HttpMessage) : Prop := getmsglen msg = msg.bodylen

/-- Each `Content-Length` line that `httpc_Message_encode` prints announces the
`bodylen` bytes that it copies behind the empty line. -/
def LinesReportBody (msg : HttpMessage) : Prop :=
  ∀ h ∈ msg.headers, AnnouncesLength h → atoi h.value = msg.bodylen

/-- The body is empty when it is cleared, and its length stays an `int`. -/
def ClearsEmpty : BodyCall → HttpMessage → Prop
  | .append data, msg => msg.bodylen + data.length ≤ intMax
  | .clear, msg => msg.bodylen = 0

/-- Moreover the body is still empty when bytes are appended. -/
def AppendsOnce : BodyCall → HttpMessage → Prop
  | .append data, msg => data = [] ∨ msg.bodylen = 0 ∧ data.length ≤ intMax
  | .clear, msg => msg.bodylen = 0

/-! ## One call -/

theorem eqIgnoreCase_contentLength : CStr.eqIgnoreCase contentLength contentLength = true := by
  decide +kernel

/-- The message after bytes have been appended. -/
def appendedBody (msg : HttpMessage) (data : List UInt8) : HttpMessage :=
  httpcMessageSetValue { msg with body := msg.body ++ data } contentLength
    (decimal (msg.bodylen + data.length))

theorem headers_appendedBody (msg : HttpMessage) (data : List UInt8) :
    (appendedBody msg data).headers =
      ⟨contentLength, decimal (msg.bodylen + data.length)⟩ :: msg.headers := rfl

theorem bodylen_appendedBody (msg : HttpMessage) (data : List UInt8) :
    (appendedBody msg data).bodylen = msg.bodylen + data.length :=
  List.length_append

theorem appendBodyCall_nil (msg : HttpMessage) : appendBodyCall msg [] = .ok msg := rfl

theorem appendBodyCall_eq {msg : HttpMessage} {data : List UInt8} (hne : data ≠ [])
    (hfits : msg.bodylen + data.length ≤ intMax) :
    appendBodyCall msg data = .ok (appendedBody msg data) := by
  have hlen : (msg.body ++ data).length = msg.bodylen + data.length := List.length_append
  rw [appendBodyCall, if_neg (by omega), httpcMessageAppendBody, if_neg hne, appendedBody, ← hlen]
  rfl

theorem appendBodyCall_overflow {msg : HttpMessage} {data : List UInt8} (hne : data ≠ [])
    (hlong : ¬ msg.bodylen + data.length ≤ intMax) :
    appendBodyCall msg data = .error .bodylenOverflow :=
  if_pos ⟨hne, by omega⟩

/-- The header that is added announces the new length. -/
theorem reportsBody_appendedBody {msg : HttpMessage} {data : List UInt8}
    (hfits : msg.bodylen + data.length ≤ intMax) : ReportsBody (appendedBody msg data) := by
  have hvalue : httpcMessageGetValue (appendedBody msg data) contentLength =
      some (decimal (msg.bodylen + data.length)) := by
    rw [httpcMessageGetValue, headers_appendedBody, List.find?_cons, eqIgnoreCase_contentLength]
    rfl
  rw [ReportsBody, getmsglen, hvalue, bodylen_appendedBody]
  exact atoi_decimal hfits

theorem getmsglen_clearBody (msg : HttpMessage) :
    getmsglen (httpcMessageClearBody msg) = getmsglen msg := rfl

theorem Fresh.getValue {msg : HttpMessage} (h : Fresh msg) :
    httpcMessageGetValue msg contentLength = none := by
  rw [httpcMessageGetValue, Option.map_eq_none_iff, List.find?_eq_none]
  exact h.headers

/-! ## Runs -/

/-- What the calls keep as long as only empty bodies are cleared. -/
structure Reporting (msg : HttpMessage) : Prop where
  reports : ReportsBody msg
  fits : msg.bodylen ≤ intMax

theorem Fresh.reporting {msg : HttpMessage} (h : Fresh msg) : Reporting msg := by
  have hzero : msg.bodylen = 0 := by
    rw [HttpMessage.bodylen, h.body, List.length_nil]
  refine ⟨?_, by omega⟩
  rw [ReportsBody, getmsglen, h.getValue, hzero]
  rfl

theorem bodyCall_reports_iff (c : BodyCall) {msg : HttpMessage} (h : Reporting msg) :
    (∃ msg', bodyCall c msg = .ok msg' ∧ ReportsBody msg') ↔ ClearsEmpty c msg := by
  cases c with
  | append data =>
      by_cases hne : data = []
      · subst hne
        exact iff_of_true ⟨msg, appendBodyCall_nil msg, h.reports⟩ h.fits
      · by_cases hfits : msg.bodylen + data.length ≤ intMax
        · exact iff_of_true
            ⟨_, appendBodyCall_eq hne hfits, reportsBody_appendedBody hfits⟩ hfits
        · refine iff_of_false ?_ hfits
          rintro ⟨msg', hmsg', -⟩
          rw [bodyCall, appendBodyCall_overflow hne hfits] at hmsg'
          cases hmsg'
  | clear =>
      have hclear : ReportsBody (httpcMessageClearBody msg) ↔ msg.bodylen = 0 := by
        rw [ReportsBody, getmsglen_clearBody, h.reports]
        exact Nat.cast_inj
      constructor
      · rintro ⟨msg', hmsg', hreports⟩
        cases hmsg'
        exact hclear.mp hreports
      · intro hzero
        exact ⟨_, rfl, hclear.mpr hzero⟩

theorem reporting_bodyCall {c : BodyCall} {msg msg' : HttpMessage} (h : Reporting msg)
    (hc : ClearsEmpty c msg) (hmsg' : bodyCall c msg = .ok msg') : Reporting msg' := by
  obtain ⟨msg'', heq, hreports⟩ := (bodyCall_reports_iff c h).mpr hc
  rw [hmsg', Except.ok.injEq] at heq
  subst heq
  refine ⟨hreports, ?_⟩
  cases c with
  | append data =>
      by_cases hne : data = []
      · subst hne
        cases hmsg'
        exact h.fits
      · rw [bodyCall, appendBodyCall_eq hne hc] at hmsg'
        cases hmsg'
        rw [bodylen_appendedBody]
        exact hc
  | clear =>
      cases hmsg'
      exact Nat.zero_le intMax

/-- What the calls keep as long as bytes are appended once at most. -/
inductive ReportingOnce (msg : HttpMessage) : Prop
  | fresh (h : Fresh msg)
  | filled (hreports : LinesReportBody msg) (hpos : 0 < msg.bodylen)
      (hheader : ∃ h ∈ msg.headers, AnnouncesLength h)

theorem Fresh.linesReportBody {msg : HttpMessage} (h : Fresh msg) : LinesReportBody msg :=
  fun header hmem hlength => absurd hlength (h.headers header hmem)

theorem ReportingOnce.reports {msg : HttpMessage} (h : ReportingOnce msg) :
    LinesReportBody msg := by
  cases h with
  | fresh h => exact h.linesReportBody
  | filled hreports hpos hheader => exact hreports

theorem reportingOnce_appendedBody {msg : HttpMessage} (h : Fresh msg) {data : List UInt8}
    (hne : data ≠ []) (hfits : data.length ≤ intMax) : ReportingOnce (appendedBody msg data) := by
  have hzero : msg.bodylen = 0 := by
    rw [HttpMessage.bodylen, h.body, List.length_nil]
  have hpos : 0 < data.length := List.length_pos_iff.mpr hne
  refine .filled ?_ (by rw [bodylen_appendedBody]; omega)
    ⟨_, List.mem_cons_self, eqIgnoreCase_contentLength⟩
  rw [LinesReportBody, headers_appendedBody, bodylen_appendedBody, List.forall_mem_cons]
  refine ⟨fun _ => ?_, fun header hmem hlength => absurd hlength (h.headers header hmem)⟩
  exact atoi_decimal (by omega)

/-- A header that is left from a shorter or longer body reports a wrong length. -/
theorem not_linesReportBody {msg msg' : HttpMessage} (hreports : LinesReportBody msg)
    (hheader : ∃ h ∈ msg.headers, AnnouncesLength h) (hmem : ∀ h ∈ msg.headers, h ∈ msg'.headers)
    (hlen : msg'.bodylen ≠ msg.bodylen) : ¬ LinesReportBody msg' := by
  obtain ⟨header, hold, hlength⟩ := hheader
  intro h
  have heq := h header (hmem header hold) hlength
  rw [hreports header hold hlength, Nat.cast_inj] at heq
  exact hlen heq.symm

theorem bodyCall_linesReport_iff (c : BodyCall) {msg : HttpMessage} (h : ReportingOnce msg) :
    (∃ msg', bodyCall c msg = .ok msg' ∧ LinesReportBody msg') ↔ AppendsOnce c msg := by
  cases c with
  | append data =>
      by_cases hne : data = []
      · subst hne
        exact iff_of_true ⟨msg, appendBodyCall_nil msg, h.reports⟩ (Or.inl rfl)
      · have hpos : 0 < data.length := List.length_pos_iff.mpr hne
        by_cases hfits : msg.bodylen + data.length ≤ intMax
        · have hcall : bodyCall (.append data) msg = .ok (appendedBody msg data) :=
            appendBodyCall_eq hne hfits
          cases h with
          | fresh h =>
              have hzero : msg.bodylen = 0 := by
                rw [HttpMessage.bodylen, h.body, List.length_nil]
              have hfits' : data.length ≤ intMax := by omega
              exact iff_of_true
                ⟨_, hcall, (reportingOnce_appendedBody h hne hfits').reports⟩
                (Or.inr ⟨hzero, hfits'⟩)
          | filled hreports hfilled hheader =>
              refine iff_of_false ?_ (by rintro (hnil | ⟨hzero, -⟩); exacts [hne hnil, by omega])
              rintro ⟨msg', hmsg', hreports'⟩
              rw [hcall, Except.ok.injEq] at hmsg'
              subst hmsg'
              refine not_linesReportBody hreports hheader ?_ ?_ hreports'
              · exact fun header hmem => List.mem_cons_of_mem _ hmem
              · rw [bodylen_appendedBody]
                omega
        · refine iff_of_false ?_ ?_
          · rintro ⟨msg', hmsg', -⟩
            rw [bodyCall, appendBodyCall_overflow hne hfits] at hmsg'
            cases hmsg'
          · rintro (hnil | ⟨hzero, hlen⟩)
            · exact hne hnil
            · omega
  | clear =>
      constructor
      · rintro ⟨msg', hmsg', hreports'⟩
        cases hmsg'
        cases h with
        | fresh h =>
            show msg.body.length = 0
            rw [h.body, List.length_nil]
        | filled hreports hfilled hheader =>
            exact absurd hreports' (not_linesReportBody hreports hheader (fun _ hmem => hmem)
              (Nat.pos_iff_ne_zero.mp hfilled).symm)
      · intro hzero
        have hsame : httpcMessageClearBody msg = msg := by
          have hnil : msg.body = [] := List.length_eq_zero_iff.mp hzero
          rw [httpcMessageClearBody, ← hnil]
        exact ⟨_, rfl, by rw [hsame]; exact h.reports⟩

theorem reportingOnce_bodyCall {c : BodyCall} {msg msg' : HttpMessage} (h : ReportingOnce msg)
    (hc : AppendsOnce c msg) (hmsg' : bodyCall c msg = .ok msg') : ReportingOnce msg' := by
  cases h with
  | fresh h =>
      cases c with
      | append data =>
          by_cases hne : data = []
          · subst hne
            cases hmsg'
            exact .fresh h
          · obtain ⟨hzero, hfits⟩ := hc.resolve_left hne
            rw [bodyCall, appendBodyCall_eq hne (by omega)] at hmsg'
            cases hmsg'
            exact reportingOnce_appendedBody h hne hfits
      | clear =>
          cases hmsg'
          exact .fresh ⟨rfl, h.headers⟩
  | filled hreports hpos hheader =>
      cases c with
      | append data =>
          rcases hc with rfl | ⟨hzero, -⟩
          · cases hmsg'
            exact .filled hreports hpos hheader
          · omega
      | clear => exact absurd hc (Nat.pos_iff_ne_zero.mp hpos)

/-- The reported length is that of the body after every call exactly when only
empty bodies are cleared and the length stays an `int`; and every line that is
printed announces it exactly when moreover bytes are appended once at most. -/
theorem reportsBody_iff {msg : HttpMessage} (h : Fresh msg) (calls : List BodyCall) :
    (Throughout bodyCall ReportsBody msg calls ↔ Meets bodyCall ClearsEmpty msg calls) ∧
      (Throughout bodyCall LinesReportBody msg calls ↔
        Meets bodyCall AppendsOnce msg calls) := by
  constructor
  · exact throughout_iff (I := Reporting) (fun s hs => hs.reports)
      (fun c s hs => bodyCall_reports_iff c hs)
      (fun c s t hs hc ht => reporting_bodyCall hs hc ht) h.reporting calls
  · exact throughout_iff (I := ReportingOnce) (fun s hs => hs.reports)
      (fun c s hs => bodyCall_linesReport_iff c hs)
      (fun c s t hs hc ht => reportingOnce_bodyCall hs hc ht) (.fresh h) calls

theorem fresh_create : Fresh httpcMessageCreate :=
  ⟨rfl, fun _ hmem => absurd hmem List.not_mem_nil⟩

/-- An empty piece, a piece, and a second one. -/
theorem reportsBody_iff_pieces :
    let calls := [.clear, .append [], .append (bytes ['a']), .append (bytes ['b'])]
    (Throughout bodyCall ReportsBody httpcMessageCreate calls ↔
        Meets bodyCall ClearsEmpty httpcMessageCreate calls) ∧
      (Throughout bodyCall LinesReportBody httpcMessageCreate calls ↔
        Meets bodyCall AppendsOnce httpcMessageCreate calls) :=
  reportsBody_iff fresh_create _

/-- After three bytes have been appended and cleared, the message still reports
three. -/
theorem not_reportsBody_cleared :
    (∃ msg, run bodyCall httpcMessageCreate [.append (bytes ['a', 'b', 'c']), .clear] = .ok msg ∧
      getmsglen msg = 3 ∧ msg.bodylen = 0) ∧
    ¬ Throughout bodyCall ReportsBody httpcMessageCreate
      [.append (bytes ['a', 'b', 'c']), .clear] := by
  have hrun : ∃ msg, run bodyCall httpcMessageCreate
      [.append (bytes ['a', 'b', 'c']), .clear] = .ok msg ∧ getmsglen msg = 3 ∧
        msg.bodylen = 0 :=
    ⟨{ appendedBody httpcMessageCreate (bytes ['a', 'b', 'c']) with body := [] },
      by decide +kernel⟩
  refine ⟨hrun, fun h => ?_⟩
  obtain ⟨msg, hmsg, hlen, hzero⟩ := hrun
  obtain ⟨msg', hmsg', hreports⟩ := h _ List.prefix_rfl
  rw [hmsg, Except.ok.injEq] at hmsg'
  subst hmsg'
  rw [ReportsBody, hlen, hzero] at hreports
  cases hreports

end LibSimple.Http
