import LibSimple.Http.Framing
import LibSimple.Http.MessageText
import Mathlib.Data.List.Pairwise

/-!
# Encoding and parsing back

The parser gives back the message that the encoder has printed.  The only
limit is the line buffer: its size is an `int` that grows in steps of
`EXPSIZE`, so a single line may not be quite as long as a whole message.
-/

namespace LibSimple.Http

open CLang Runs StoreTrace

/-! ## Counting consumed bytes -/

theorem complete_run {s t : Parser} {data : List UInt8} (hs : s.pd.state = .complete)
    (h : run appendByte s data = .ok t) : t.pd.state = .complete := by
  refine run_invariant (P := fun s => s.pd.state = .complete) (fun c s t hs h => ?_) hs h
  simp only [appendByte, hs, Except.ok.injEq] at h
  exact h ▸ hs

/-- As long as the message is not complete every byte is consumed. -/
theorem appendBytes_of_run_incomplete {s t : Parser} {data : List UInt8}
    (h : run appendByte s data = .ok t) (ht : t.pd.state ≠ .complete) :
    appendBytes s data = .ok (t, data.length) := by
  induction data generalizing s with
  | nil =>
      cases h
      rfl
  | cons c data ih =>
      have hs : s.pd.state ≠ .complete := fun hs => ht (complete_run hs h)
      obtain ⟨s', hs', h⟩ := run_cons_eq_ok h
      rw [appendBytes, if_neg hs, hs', ok_bind, ih h]
      rfl

/-- When all bytes are consumed no shorter prefix completes the message. -/
theorem incomplete_of_used_eq_length {s t u : Parser} {data : List UInt8} {n used : ℕ}
    (h : appendBytes s data = .ok (t, data.length)) (hn : n < data.length)
    (hu : appendBytes s (data.take n) = .ok (u, used)) : u.pd.state ≠ .complete := by
  intro hdone
  have hsplit := appendBytes_append_ok hu (appendBytes_of_complete hdone (data.drop n))
  rw [List.take_append_drop, h] at hsplit
  have hlen : data.length = used + 0 := congrArg Prod.snd (Except.ok.inj hsplit)
  have hle := (used_of_appendBytes hu).1
  rw [List.length_take] at hle
  omega

/-! ## The text of a message -/

/-- The messages that the text format can carry, with the texts of their start
line. -/
structure WellFormed (msg : HttpMessage) (p1 p2 p3 : CStr) : Prop where
  start : msg.startLine = ⟨some p1, some p2, some p3⟩
  startLine : StartLineOk p1 p2 p3
  headers : ∀ h ∈ msg.headers, HeaderOk h
  keys : msg.headers.Pairwise fun h k => CStr.eqIgnoreCase h.key k.key = false
  bodylen : if 0 < msg.bodylen
    then httpcMessageGetValue msg contentLength = some (decimal msg.bodylen)
    else getmsglen msg ≤ 0
  fits : (encodedText p1 p2 p3 msg.headers msg.body).length ≤ intMax

/-- The `httpc_Message_get_encode_length` bytes that the encoder leaves in its
buffer. -/
def encodedBuffer (msg : HttpMessage) (withBody : Bool) : Option (List UInt8) := do
  let trace ← httpcMessageEncode msg withBody
  load trace 0 (httpcMessageGetEncodeLength msg withBody).toNat

/-- The same start line, body, header pairs and values. -/
structure SameMessage (msg parsed : HttpMessage) : Prop where
  startLine : parsed.startLine = msg.startLine
  body : parsed.body = msg.body
  headers : ∀ h, h ∈ parsed.headers ↔ h ∈ msg.headers
  getValue : ∀ key, httpcMessageGetValue parsed key = httpcMessageGetValue msg key

/-- Encoding with body and parsing from null consumes the encoded bytes, all of
them and no fewer, and gives the message back. -/
def RoundTrips (msg : HttpMessage) : Prop :=
  ∃ text s, encodedBuffer msg true = some text ∧
    (text.length : ℤ) = httpcMessageGetEncodeLength msg true ∧
    httpcParserParse none text = .ok (s, text.length) ∧ s.pd.state = .complete ∧
    SameMessage msg s.msg ∧
    ∀ n < text.length, ∀ t used, httpcParserParse none (text.take n) = .ok (t, used) →
      t.pd.state ≠ .complete

/-- A start line and headers that the text format can carry; keys may repeat. -/
structure HeadOk (msg : HttpMessage) (p1 p2 p3 : CStr) : Prop where
  start : msg.startLine = ⟨some p1, some p2, some p3⟩
  startLine : StartLineOk p1 p2 p3
  headers : ∀ h ∈ msg.headers, HeaderOk h

theorem WellFormed.headOk {msg : HttpMessage} {p1 p2 p3 : CStr} (h : WellFormed msg p1 p2 p3) :
    HeadOk msg p1 p2 p3 :=
  ⟨h.start, h.startLine, h.headers⟩

theorem encodedBuffer_eq_text {msg : HttpMessage} {p1 p2 p3 : CStr} (withBody : Bool)
    (hstart : msg.startLine = ⟨some p1, some p2, some p3⟩)
    (hfits : (encodedText p1 p2 p3 msg.headers (if withBody then msg.body else [])).length ≤
      intMax) :
    encodedBuffer msg withBody =
      some (encodedText p1 p2 p3 msg.headers (if withBody then msg.body else [])) := by
  obtain ⟨trace, htrace, hcontents⟩ := encode_contents withBody hstart
  rw [encodedBuffer, htrace, getEncodeLength_eq withBody hstart hfits]
  refine load_eq fun i hi => ?_
  rw [Nat.zero_add, hcontents]
  exact List.getElem?_append_left hi

theorem encodedBuffer_eq {msg : HttpMessage} {p1 p2 p3 : CStr}
    (hstart : msg.startLine = ⟨some p1, some p2, some p3⟩)
    (hfits : (encodedText p1 p2 p3 msg.headers msg.body).length ≤ intMax) :
    encodedBuffer msg true = some (encodedText p1 p2 p3 msg.headers msg.body) ∧
      httpcMessageGetEncodeLength msg true =
        ((encodedText p1 p2 p3 msg.headers msg.body).length : ℕ) :=
  ⟨encodedBuffer_eq_text true hstart hfits, getEncodeLength_eq true hstart hfits⟩

/-! ## The collected message -/

/-- The message that the parser has collected at the empty line. -/
def collected (msg : HttpMessage) : HttpMessage :=
  msg.headers.foldl (fun m h => httpcMessageSetValue m h.key h.value)
    { httpcMessageCreate with startLine := msg.startLine }

theorem foldl_setValue (headers : List HttpHeader) (msg : HttpMessage) :
    (headers.foldl (fun m h => httpcMessageSetValue m h.key h.value) msg).startLine =
        msg.startLine ∧
      (headers.foldl (fun m h => httpcMessageSetValue m h.key h.value) msg).body = msg.body ∧
      (headers.foldl (fun m h => httpcMessageSetValue m h.key h.value) msg).headers =
        headers.reverse ++ msg.headers := by
  induction headers generalizing msg with
  | nil => exact ⟨rfl, rfl, rfl⟩
  | cons h headers ih =>
      obtain ⟨hstart, hbody, hheaders⟩ := ih (httpcMessageSetValue msg h.key h.value)
      exact ⟨hstart, hbody, by rw [List.foldl_cons, hheaders]; simp [httpcMessageSetValue]⟩

/-- A search for the only match does not depend on the direction. -/
theorem find?_reverse_of_unique {α : Type*} {p : α → Bool} {xs : List α}
    (h : ∀ a ∈ xs, ∀ b ∈ xs, p a = true → p b = true → a = b) :
    xs.reverse.find? p = xs.find? p := by
  cases hfind : xs.find? p with
  | none =>
      rw [List.find?_eq_none] at hfind ⊢
      exact fun a ha => hfind a (List.mem_reverse.mp ha)
  | some a =>
      cases hrev : xs.reverse.find? p with
      | none =>
          rw [List.find?_eq_none] at hrev
          exact absurd (List.find?_some hfind)
            (hrev a (List.mem_reverse.mpr (List.mem_of_find?_eq_some hfind)))
      | some b =>
          have hb := List.mem_reverse.mp (List.mem_of_find?_eq_some hrev)
          rw [h b hb a (List.mem_of_find?_eq_some hfind) (List.find?_some hrev)
            (List.find?_some hfind)]

/-- Headers with different keys are found under their key in either order. -/
theorem getValue_collected {msg : HttpMessage} {p1 p2 p3 : CStr}
    (h : WellFormed msg p1 p2 p3) (key : CStr) :
    httpcMessageGetValue (collected msg) key = httpcMessageGetValue msg key := by
  have hheaders : (collected msg).headers = msg.headers.reverse := by
    rw [collected, (foldl_setValue _ _).2.2]
    exact List.append_nil _
  have hunique : ∀ a ∈ msg.headers, ∀ b ∈ msg.headers, CStr.eqIgnoreCase a.key key = true →
      CStr.eqIgnoreCase b.key key = true → a = b := by
    intro a ha b hb hakey hbkey
    by_contra hab
    have hsymm : Std.Symm fun h k : HttpHeader => CStr.eqIgnoreCase h.key k.key = false :=
      ⟨fun x y hxy => by rwa [CStr.eqIgnoreCase_comm]⟩
    have hdiff := h.keys.forall ha hb hab
    rw [CStr.eqIgnoreCase_comm] at hbkey
    rw [CStr.eqIgnoreCase_trans hakey hbkey] at hdiff
    cases hdiff
  rw [httpcMessageGetValue, httpcMessageGetValue, hheaders, find?_reverse_of_unique hunique]

theorem sameMessage_collected {msg : HttpMessage} {p1 p2 p3 : CStr}
    (h : WellFormed msg p1 p2 p3) :
    SameMessage msg { collected msg with body := msg.body } := by
  obtain ⟨hstart, -, hheaders⟩ := foldl_setValue msg.headers
    { httpcMessageCreate with startLine := msg.startLine }
  refine ⟨hstart, rfl, fun header => ?_, getValue_collected h⟩
  show header ∈ (collected msg).headers ↔ header ∈ msg.headers
  rw [collected, hheaders]
  simp [httpcMessageCreate]

theorem getmsglen_collected {msg : HttpMessage} {p1 p2 p3 : CStr}
    (h : WellFormed msg p1 p2 p3) :
    getmsglen (collected msg) = getmsglen msg := by
  rw [getmsglen, getmsglen, getValue_collected h]

theorem getmsglen_of_body {msg : HttpMessage} {p1 p2 p3 : CStr} (h : WellFormed msg p1 p2 p3)
    (hpos : 0 < msg.bodylen) : getmsglen msg = msg.bodylen := by
  have hvalue := h.bodylen
  have hfits := h.fits
  rw [if_pos hpos] at hvalue
  rw [encodedText, List.length_append] at hfits
  have hle : msg.bodylen ≤ intMax := le_trans (Nat.le_add_left _ _) hfits
  rw [getmsglen, hvalue]
  exact atoi_decimal hle

theorem bodylen_eq_collected {msg : HttpMessage} {p1 p2 p3 : CStr}
    (h : WellFormed msg p1 p2 p3) :
    (msg.bodylen : ℤ) = max 0 (getmsglen (collected msg)) := by
  rw [getmsglen_collected h]
  by_cases hpos : 0 < msg.bodylen
  · rw [getmsglen_of_body h hpos]
    omega
  · have hle := h.bodylen
    rw [if_neg hpos] at hle
    omega

/-! ## The round trip -/

/-- Every line of the message fits the line buffer. -/
def LinesFit (msg : HttpMessage) (p1 p2 p3 : CStr) : Prop :=
  (startLineText p1 p2 p3).length ≤ maxLine ∧ ∀ h ∈ msg.headers, (headerText h).length ≤ maxLine

/-- The head of a message, up to the CR of its empty line. -/
theorem outcome_head {msg : HttpMessage} {p1 p2 p3 : CStr} (h : HeadOk msg p1 p2 p3) :
    Outcome appendByte parserCreate
      (startLineText p1 p2 p3 ++ (msg.headers.flatMap headerText ++ [cr]))
      (LinesFit msg p1 p2 p3) fun t =>
        Invariant t ∧ t.pd.state = .cr ∧ t.pd.linedata = [cr] ∧ t.msg = collected msg := by
  have hcollected : collected msg =
      msg.headers.foldl (fun m h => httpcMessageSetValue m h.key h.value)
        { httpcMessageCreate with startLine := ⟨some p1, some p2, some p3⟩ } := by
    rw [collected, h.start]
  rw [hcollected]
  refine ((outcome_startLineText h.startLine).append fun s hs =>
    (outcome_headers hs h.headers).append fun t ht =>
      outcome_nextLine ht (c := cr) (by decide)).congr ?_ fun t ht => ht
  rw [LinesFit, and_true]

/-- The text up to the CR of the blank line, and the rest. -/
theorem encodedText_eq_head (p1 p2 p3 : CStr) (headers : List HttpHeader) (body : List UInt8) :
    encodedText p1 p2 p3 headers body =
      startLineText p1 p2 p3 ++ (headers.flatMap headerText ++ [cr]) ++ ([lf] ++ body) := by
  simp [encodedText]

theorem encodedText_append (p1 p2 p3 : CStr) (headers : List HttpHeader) (body : List UInt8) :
    encodedText p1 p2 p3 headers body = encodedText p1 p2 p3 headers [] ++ body := by
  simp [encodedText]

/-- The text up to the blank line: the message has its headers, and waits for its body
or is complete. -/
theorem appendBytes_head {msg : HttpMessage} {p1 p2 p3 : CStr} (h : HeadOk msg p1 p2 p3)
    (hfit : LinesFit msg p1 p2 p3) :
    ∃ u v, run appendByte parserCreate
        (startLineText p1 p2 p3 ++ (msg.headers.flatMap headerText ++ [cr])) = .ok u ∧
      u.pd.state = .cr ∧
      appendBytes parserCreate (encodedText p1 p2 p3 msg.headers []) =
        .ok (v, (encodedText p1 p2 p3 msg.headers []).length) ∧
      v.msg = collected msg ∧
      v.pd.state = if getmsglen (collected msg) > 0 then .body else .complete := by
  obtain ⟨u, hu⟩ := (outcome_head h).isOk_iff.mpr hfit
  obtain ⟨hinv, hstate, hline, hmsg⟩ := (outcome_head h).post u hu
  have hhead := appendBytes_of_run_incomplete hu (by rw [hstate]; decide)
  obtain ⟨v, hv⟩ : ∃ v, appendByte lf u = .ok v := by
    rw [appendByte_isOk_iff hinv, StepSafe, ParserData.lineDatasize, hline, hstate]
    exact Nat.lt_of_lt_of_eq (by decide) maxLine_eq.symm
  have hveq := (byteStep_of_appendByte hinv hv).2.eq_of_cr_lf hstate
  rw [hline, if_pos (show ([cr] ++ [lf]).take 2 = [cr, lf] from rfl), hmsg] at hveq
  have hlf : appendBytes u [lf] = .ok (v, 1) := by
    rw [appendBytes, if_neg (by rw [hstate]; decide), hv]
    rfl
  refine ⟨u, v, hu, hstate, ?_, by rw [hveq]; exact hmsg, by rw [hveq]; rfl⟩
  rw [encodedText_eq_head, List.append_nil, appendBytes_append_ok hhead hlf]
  simp only [List.length_append, List.length_singleton]

/-- Behind the empty line the bytes of a body of the announced length are taken, and
complete the message. -/
theorem appendBytes_announced {v : Parser} (hbody : v.msg.body = [])
    (hstate : v.pd.state = if getmsglen v.msg > 0 then .body else .complete) {data : List UInt8}
    (hlen : (data.length : ℤ) = max 0 (getmsglen v.msg)) :
    ∃ s, appendBytes v data = .ok (s, data.length) ∧ s.pd.state = .complete ∧
      s.msg = { v.msg with body := data } := by
  by_cases hpos : getmsglen v.msg > 0
  · rw [if_pos hpos] at hstate
    have hvlen : getmsglen v.msg = (v.msg.bodylen + data.length : ℕ) := by
      rw [HttpMessage.bodylen, hbody, List.length_nil, Nat.zero_add]
      exact (hlen.trans (max_eq_right hpos.le)).symm
    have hnil : data ≠ [] := by
      intro hnil
      rw [hnil, List.length_nil] at hlen
      omega
    refine ⟨_, appendBytes_body hstate data hnil hvlen.ge, ?_, ?_⟩
    · rw [bodyStored, if_pos hvlen]
      rfl
    · rw [bodyStored, if_pos hvlen, Parser.setState_msg, Parser.setBody_msg, hbody]
      rfl
  · rw [if_neg hpos] at hstate
    have hnil : data = [] := by
      rw [← List.length_eq_zero_iff]
      omega
    refine ⟨v, by rw [hnil]; rfl, hstate, ?_⟩
    rw [hnil, ← hbody]

/-- A message whose lines fit, and whose body is as long as the parser expects
of the headers it has collected, is parsed back from its text. -/
theorem appendBytes_encodedText {msg : HttpMessage} {p1 p2 p3 : CStr}
    (h : HeadOk msg p1 p2 p3) (hfit : LinesFit msg p1 p2 p3)
    (hlen : (msg.bodylen : ℤ) = max 0 (getmsglen (collected msg))) :
    ∃ s, appendBytes parserCreate (encodedText p1 p2 p3 msg.headers msg.body) =
        .ok (s, (encodedText p1 p2 p3 msg.headers msg.body).length) ∧
      s.pd.state = .complete ∧ s.msg = { collected msg with body := msg.body } := by
  obtain ⟨-, v, -, -, hhead, hvmsg, hvstate⟩ := appendBytes_head h hfit
  have hbody : (collected msg).body = [] := (foldl_setValue _ _).2.1
  rw [← hvmsg] at hlen hbody hvstate ⊢
  obtain ⟨s, hs, hdone, hsmsg⟩ := appendBytes_announced hbody hvstate hlen
  refine ⟨s, ?_, hdone, hsmsg⟩
  rw [encodedText_append, appendBytes_append_ok hhead hs, List.length_append]

/-- A message with a line that is too long is not parsed at all. -/
theorem linesFit_of_appendBytes {msg : HttpMessage} {p1 p2 p3 : CStr}
    (h : HeadOk msg p1 p2 p3) {s : Parser} {used : ℕ}
    (hs : appendBytes parserCreate (encodedText p1 p2 p3 msg.headers msg.body) =
      .ok (s, used)) : LinesFit msg p1 p2 p3 := by
  have hrun := run_of_appendBytes hs
  rw [encodedText_eq_head] at hrun
  obtain ⟨t, ht, -⟩ := run_append_eq_ok hrun
  exact (outcome_head h).isOk_iff.mp ⟨t, ht⟩

theorem linesFit_of_roundTrips {msg : HttpMessage} {p1 p2 p3 : CStr}
    (h : WellFormed msg p1 p2 p3) (hround : RoundTrips msg) : LinesFit msg p1 p2 p3 := by
  obtain ⟨text, s, htext, -, hparse, -⟩ := hround
  rw [(encodedBuffer_eq h.start h.fits).1, Option.some.injEq] at htext
  subst htext
  rw [httpcParserParse_none] at hparse
  exact linesFit_of_appendBytes h.headOk hparse

/-- A message that the text format can carry survives encoding and parsing
exactly when each of its lines fits the line buffer. -/
theorem roundTrips_iff {msg : HttpMessage} {p1 p2 p3 : CStr} (h : WellFormed msg p1 p2 p3) :
    RoundTrips msg ↔ LinesFit msg p1 p2 p3 := by
  refine ⟨linesFit_of_roundTrips h, fun hfit => ?_⟩
  obtain ⟨hbuffer, hlength⟩ := encodedBuffer_eq h.start h.fits
  obtain ⟨s, hs, hdone, hmsg⟩ := appendBytes_encodedText h.headOk hfit (bodylen_eq_collected h)
  refine ⟨_, s, hbuffer, hlength.symm, by rw [httpcParserParse_none, hs], hdone, ?_, ?_⟩
  · rw [hmsg]
    exact sameMessage_collected h
  · intro n hn t used ht
    rw [httpcParserParse_none] at ht
    exact incomplete_of_used_eq_length hs hn ht

/-- A message with a body of two bytes. -/
def postMessage : HttpMessage where
  startLine := (pingMessage []).startLine
  headers := ⟨contentLength, decimal 2⟩ :: (pingMessage []).headers
  headerCnt := 2
  body := bytes ['h', 'i']

theorem wellFormed_postMessage : WellFormed postMessage getText rootText versionText where
  start := rfl
  startLine := ⟨by decide +kernel, by decide +kernel, by decide +kernel⟩
  headers := by
    intro h hmem
    rcases List.mem_cons.mp hmem with rfl | hmem
    · refine ⟨?_, ?_, ?_, ?_, ?_⟩
      · exact ⟨by decide +kernel, by decide +kernel, by decide +kernel⟩
      · exact ⟨by decide +kernel, by decide +kernel, by decide +kernel⟩
      · decide +kernel
      · decide +kernel
      · decide +kernel
    · rw [List.mem_singleton.mp hmem]
      refine ⟨?_, ?_, ?_, ?_, ?_⟩
      · exact ⟨by decide +kernel, by decide +kernel, by decide +kernel⟩
      · exact ⟨by decide +kernel, by decide +kernel, by decide +kernel⟩
      · decide +kernel
      · decide +kernel
      · decide +kernel
  keys := by decide +kernel
  bodylen := by decide +kernel
  fits := by decide +kernel

theorem roundTrips_iff_post :
    RoundTrips postMessage ↔ LinesFit postMessage getText rootText versionText :=
  roundTrips_iff wellFormed_postMessage

/-- A text of `n` letters. -/
def longText (n : ℕ) : CStr :=
  ⟨List.replicate n 120, fun h => absurd (List.eq_of_mem_replicate h) (by decide)⟩

theorem strlen_longText (n : ℕ) : (longText n).strlen = n := List.length_replicate

/-- A message whose start line ends with a text of `n` letters. -/
def longMessage (n : ℕ) : HttpMessage where
  startLine := ⟨some getText, some rootText, some (longText n)⟩
  headers := []
  headerCnt := 0
  body := []

theorem length_longLine (n : ℕ) :
    (startLineText getText rootText (longText n)).length = n + 8 := by
  rw [length_startLineText, strlen_longText, show getText.strlen = 3 from rfl,
    show rootText.strlen = 1 from rfl]
  omega

theorem wellFormed_longMessage {n : ℕ} (hn : n + 10 ≤ intMax) :
    WellFormed (longMessage n) getText rootText (longText n) where
  start := rfl
  startLine := by
    refine ⟨by decide +kernel, by decide +kernel, fun c hc => ?_, fun c hc => ?_⟩
    · rw [List.eq_of_mem_replicate hc]
      decide
    · rw [List.eq_of_mem_replicate (List.mem_of_mem_head? hc)]
      decide
  headers := fun h hmem => absurd hmem List.not_mem_nil
  keys := List.Pairwise.nil
  bodylen := (if_neg (Nat.lt_irrefl 0)).mpr (le_refl 0)
  fits := by
    have htext : (encodedText getText rootText (longText n) [] []).length =
        (startLineText getText rootText (longText n)).length + 2 := by
      simp [encodedText]
    rw [length_longLine] at htext
    exact htext.trans_le hn

theorem not_roundTrips_of_long {n : ℕ} (hn : n + 10 ≤ intMax) (hlong : maxLine < n + 8) :
    ¬ RoundTrips (longMessage n) := by
  intro hround
  have hfit := (linesFit_of_roundTrips (wellFormed_longMessage hn) hround).1
  rw [length_longLine] at hfit
  exact absurd hfit (Nat.not_le.mpr hlong)

/-- The parser fails on a start line that is longer than its buffer can grow,
although the whole text is not longer than an `int` can say. -/
theorem not_roundTrips_long :
    WellFormed (longMessage 2147483600) getText rootText (longText 2147483600) ∧
      ¬ RoundTrips (longMessage 2147483600) :=
  have hn : 2147483600 + 10 ≤ intMax := by
    rw [intMax_eq]
    norm_num
  ⟨wellFormed_longMessage hn, not_roundTrips_of_long hn (by rw [maxLine_eq]; norm_num)⟩

end LibSimple.Http
