import LibSimple.Http.BlankLine
import LibSimple.Http.RoundTrip
import LibSimple.Http.Safety
import Mathlib.Data.Nat.Digits.Lemmas

/-!
# Bodies that are built in pieces

`httpc_Message_appendBody` adds a further `Content-Length` header with every
piece.  The encoder prints the newest header first and the parser puts each
header in front of its list, so the parser goes by the oldest one.
-/

namespace LibSimple.Http

open CLang Runs StoreTrace

/-- `httpc_Message_appendBody` on a message, with its return value.  The scratch
text `tmp` holds the ten digits that an `int` can have. -/
def httpcMessageAppendBody (msg : HttpMessage) (data : List UInt8) : HttpMessage × ℕ :=
  if data = [] then (msg, msg.bodylen)
  else
    let msg := { msg with body := msg.body ++ data }
    let msg := httpcMessageSetValue msg contentLength (decimal msg.bodylen)
    (msg, msg.bodylen)

/-- Calls of `httpc_Message_appendBody` one after another. -/
def appendChunks (msg : HttpMessage) (chunks : List (List UInt8)) : HttpMessage :=
  chunks.foldl (fun msg chunk => (httpcMessageAppendBody msg chunk).1) msg

/-- Encoding the message with the chunks and parsing it from null consumes the
encoded bytes, all of them and no fewer, and gives the chunks as the body. -/
def BodySurvives (msg : HttpMessage) (chunks : List (List UInt8)) : Prop :=
  ∃ text s, encodedBuffer (appendChunks msg chunks) true = some text ∧
    httpcParserParse none text = .ok (s, text.length) ∧ s.pd.state = .complete ∧
    s.msg.body = chunks.flatten ∧
    ∀ n < text.length, ∀ t used, httpcParserParse none (text.take n) = .ok (t, used) →
      t.pd.state ≠ .complete

/-! ## The headers that the calls add -/

/-- The added headers, oldest first, when the body has `n` bytes before. -/
def lengthHeaders (n : ℕ) : List (List UInt8) → List HttpHeader
  | [] => []
  | chunk :: chunks =>
      ⟨contentLength, decimal (n + chunk.length)⟩ :: lengthHeaders (n + chunk.length) chunks

theorem appendChunks_spec (msg : HttpMessage) {chunks : List (List UInt8)}
    (hne : ∀ chunk ∈ chunks, chunk ≠ []) :
    (appendChunks msg chunks).startLine = msg.startLine ∧
      (appendChunks msg chunks).body = msg.body ++ chunks.flatten ∧
      (appendChunks msg chunks).headers =
        (lengthHeaders msg.bodylen chunks).reverse ++ msg.headers := by
  induction chunks generalizing msg with
  | nil => exact ⟨rfl, (List.append_nil _).symm, rfl⟩
  | cons chunk chunks ih =>
      rw [List.forall_mem_cons] at hne
      obtain ⟨hstart, hbody, hheaders⟩ := ih (httpcMessageAppendBody msg chunk).1 hne.2
      have hcall : (httpcMessageAppendBody msg chunk).1 =
          httpcMessageSetValue { msg with body := msg.body ++ chunk } contentLength
            (decimal (msg.body ++ chunk).length) := by
        rw [httpcMessageAppendBody, if_neg hne.1]
        rfl
      have hlen : (httpcMessageAppendBody msg chunk).1.bodylen = msg.bodylen + chunk.length := by
        rw [hcall]
        exact List.length_append
      rw [appendChunks, List.foldl_cons, ← appendChunks]
      refine ⟨?_, ?_, ?_⟩
      · rw [hstart, hcall]
        rfl
      · rw [hbody, hcall, List.flatten_cons, ← List.append_assoc]
        rfl
      · rw [hheaders, hlen, hcall, lengthHeaders, List.reverse_cons, List.append_assoc,
          List.length_append]
        rfl

theorem mem_lengthHeaders {n : ℕ} {chunks : List (List UInt8)} {h : HttpHeader}
    (hmem : h ∈ lengthHeaders n chunks) :
    ∃ k ≤ n + chunks.flatten.length, h = ⟨contentLength, decimal k⟩ := by
  induction chunks generalizing n with
  | nil => exact absurd hmem List.not_mem_nil
  | cons chunk chunks ih =>
      rw [List.flatten_cons, List.length_append]
      rcases List.mem_cons.mp hmem with rfl | hmem
      · exact ⟨n + chunk.length, by omega, rfl⟩
      · obtain ⟨k, hk, rfl⟩ := ih hmem
        exact ⟨k, by omega, rfl⟩

theorem isspace_of_isDigit {c : UInt8} (h : isDigit c = true) :
    isspace c = false ∧ c ≠ cr ∧ c ≠ lf := by
  have hspace := (digit_ne h).1
  have hne : ∀ d : UInt8, isSpaceChar d = true → c ≠ d := by
    rintro d hd rfl
    rw [hspace] at hd
    cases hd
  have h32 := hne 32 (by decide)
  have h9 := hne 9 (by decide)
  have hcr := hne cr (by decide)
  have hlf := hne lf (by decide)
  exact ⟨by simp [isspace, isblank, h32, h9, hcr, hlf], hcr, hlf⟩

/-- The text of a number is a header value like any other. -/
theorem headerOk_contentLength (n : ℕ) : HeaderOk ⟨contentLength, decimal n⟩ := by
  have hdigit : ∀ c ∈ (decimal n).val, isspace c = false ∧ c ≠ cr ∧ c ≠ lf :=
    fun c hc => isspace_of_isDigit (isDigit_of_mem_decimalDigits hc)
  have hkey : Trimmed contentLength.val := by
    constructor
    · decide +kernel
    · decide +kernel
    · decide +kernel
  have hvalue : Trimmed (decimal n).val := by
    refine ⟨decimalDigits_ne_nil n, fun c hc => ?_, fun c hc => ?_⟩
    · exact (hdigit c (List.mem_of_mem_head? hc)).1
    · exact (hdigit c (List.mem_of_getLast? hc)).1
  have hkeyText : ∀ c ∈ contentLength.val, c ≠ colon ∧ c ≠ cr ∧ c ≠ lf := by
    decide +kernel
  have hlength : 2 ≤ contentLength.val.length := by
    decide +kernel
  exact ⟨hkey, hvalue, hlength, hkeyText, fun c hc => (hdigit c hc).2⟩

theorem length_decimalDigits {n : ℕ} (h : n < 10 ^ 10) : (decimalDigits n).length ≤ 10 := by
  unfold decimalDigits
  split_ifs with hn
  · exact Nat.le_of_ble_eq_true rfl
  · rwa [List.length_reverse, List.length_map, Nat.digits_length_le_iff (by decide)]

theorem length_contentLengthText {n : ℕ} (h : n ≤ intMax) :
    (headerText ⟨contentLength, decimal n⟩).length ≤ maxLine := by
  have hdigits : (decimal n).strlen ≤ 10 :=
    length_decimalDigits (by unfold intMax at h; omega)
  have hkey : contentLength.strlen = 14 := rfl
  rw [length_headerText, maxLine_eq]
  show contentLength.strlen + 2 + (decimal n).strlen + 2 ≤ 2147483520
  omega

/-- The message with the chunks has a head that the text format can carry, and
the added lines fit the line buffer. -/
theorem headOk_appendChunks {msg : HttpMessage} {p1 p2 p3 : CStr} (h : HeadOk msg p1 p2 p3)
    {chunks : List (List UInt8)} (hne : ∀ chunk ∈ chunks, chunk ≠ []) :
    HeadOk (appendChunks msg chunks) p1 p2 p3 := by
  obtain ⟨hstart, -, hheaders⟩ := appendChunks_spec msg hne
  refine ⟨hstart.trans h.start, h.startLine, ?_⟩
  intro header hmem
  rw [hheaders, List.mem_append, List.mem_reverse] at hmem
  rcases hmem with hmem | hmem
  · obtain ⟨k, -, rfl⟩ := mem_lengthHeaders hmem
    exact headerOk_contentLength k
  · exact h.headers header hmem

theorem linesFit_appendChunks_iff {msg : HttpMessage} {p1 p2 p3 : CStr}
    {chunks : List (List UInt8)} (hne : ∀ chunk ∈ chunks, chunk ≠ [])
    (hlen : msg.bodylen + chunks.flatten.length ≤ intMax) :
    LinesFit (appendChunks msg chunks) p1 p2 p3 ↔ LinesFit msg p1 p2 p3 := by
  have hadded : ∀ h ∈ lengthHeaders msg.bodylen chunks, (headerText h).length ≤ maxLine := by
    intro header hmem
    obtain ⟨k, hk, rfl⟩ := mem_lengthHeaders hmem
    exact length_contentLengthText (hk.trans hlen)
  rw [LinesFit, LinesFit, (appendChunks_spec msg hne).2.2]
  apply and_congr_right
  intro _
  constructor
  · intro h header hmem
    exact h header (List.mem_append_right _ hmem)
  · intro h header hmem
    rcases List.mem_append.mp hmem with hmem | hmem
    · exact hadded header (List.mem_reverse.mp hmem)
    · exact h header hmem

/-! ## The length that the parser goes by -/

/-- The value of the header with this key that was set first. -/
def oldestValue (msg : HttpMessage) (key : CStr) : Option CStr :=
  (msg.headers.reverse.find? fun h => CStr.eqIgnoreCase h.key key).map HttpHeader.value

/-- The first `Content-Length` that the message ever got is the length of all
chunks together.  Without one before the calls it comes from the first chunk. -/
def AnnouncesTotal (msg : HttpMessage) (chunks : List (List UInt8)) : Prop :=
  match oldestValue msg contentLength with
  | some v => (chunks.flatten.length : ℤ) = max 0 (atoi v)
  | none => chunks.length ≤ 1

theorem getValue_collected_appendChunks (msg : HttpMessage) {chunks : List (List UInt8)}
    (hne : ∀ chunk ∈ chunks, chunk ≠ []) (key : CStr) :
    httpcMessageGetValue (collected (appendChunks msg chunks)) key =
      (oldestValue msg key).or
        (((lengthHeaders msg.bodylen chunks).find? fun h => CStr.eqIgnoreCase h.key key).map
          HttpHeader.value) := by
  have hheaders : (collected (appendChunks msg chunks)).headers =
      msg.headers.reverse ++ lengthHeaders msg.bodylen chunks := by
    rw [collected, (foldl_setValue _ _).2.2, (appendChunks_spec msg hne).2.2,
      List.reverse_append, List.reverse_reverse]
    exact List.append_nil _
  rw [httpcMessageGetValue, hheaders, List.find?_append, Option.map_or, oldestValue]

/-- The parser expects the bytes of all chunks exactly when their total is what
the oldest `Content-Length` announces. -/
theorem announcesTotal_iff {msg : HttpMessage} (hempty : msg.body = [])
    {chunks : List (List UInt8)} (hne : ∀ chunk ∈ chunks, chunk ≠ [])
    (hlen : chunks.flatten.length ≤ intMax) :
    (chunks.flatten.length : ℤ) = max 0 (getmsglen (collected (appendChunks msg chunks))) ↔
      AnnouncesTotal msg chunks := by
  rw [getmsglen, getValue_collected_appendChunks msg hne, AnnouncesTotal]
  cases oldestValue msg contentLength with
  | some v => rfl
  | none =>
      cases chunks with
      | nil => exact iff_of_true rfl (Nat.zero_le 1)
      | cons chunk chunks =>
          have hmatch : CStr.eqIgnoreCase contentLength contentLength = true := by
            decide +kernel
          have hzero : msg.bodylen = 0 := by
            rw [HttpMessage.bodylen, hempty, List.length_nil]
          rw [List.flatten_cons, List.length_append] at hlen ⊢
          have hfirst : atoi (decimal chunk.length) = chunk.length :=
            atoi_decimal (le_trans (Nat.le_add_right _ _) hlen)
          simp only [lengthHeaders, hmatch, List.find?_cons_of_pos, Option.map_some,
            Option.none_or, hzero, Nat.zero_add, hfirst]
          cases chunks with
          | nil => simp
          | cons next chunks =>
              have hnext : 0 < next.length := by
                apply List.length_pos_iff.mpr
                exact hne next (by simp)
              rw [List.flatten_cons, List.length_append, List.length_cons, List.length_cons]
              omega

/-! ## Where the body begins -/

/-- The parser gets through these bytes, leaves the headers with the last of them, an
LF, and the headers that it has collected before announce `n` bytes of body. -/
def HeadAnnounces (head : List UInt8) (n : ℕ) : Prop :=
  StepsSafe head ∧ ∃ front, head = front ++ [lf] ∧
    ∀ s, run appendByte parserCreate front = .ok s →
      s.pd.state = .cr ∧ (s.pd.linedata ++ [lf]).take 2 = [cr, lf] ∧
        (n : ℤ) = max 0 (getmsglen s.msg)

/-- Only the LF of an empty line leaves the headers. -/
theorem ByteStep.eq_of_left {c : UInt8} {s t : Parser} (hinv : Invariant s) (hs : ¬ Left s)
    (ht : Left t) (h : ByteStep c s t) :
    c = lf ∧ s.pd.state = .cr ∧ (s.pd.linedata ++ [lf]).take 2 = [cr, lf] ∧ t.msg = s.msg := by
  have htext : ∀ {u : Parser}, (u.pd.state = .startline ∨ u.pd.state = .headers) → ¬ Left u := by
    rintro u (hu | hu) <;> simp [Left, hu]
  cases h with
  | blankLine hstate hc hline => exact ⟨hc, hstate, hline, rfl⟩
  | text hstate hc => exact absurd ht (htext hstate)
  | strayCr hstate hc => exact absurd ht (htext (hinv.lastState (Or.inl hstate)))
  | foldText hstate hc => exact absurd ht (htext (hinv.lastState (Or.inr (Or.inr hstate))))
  | nextLine hstate hc hline =>
      split_ifs at ht
      · exact absurd ht (by simp [Left])
      · exact absurd ht (htext (Or.inr rfl))
  | foldBlank hstate hc => exact absurd ht hs
  | body hstate hlen => exact absurd (Or.inl hstate) hs
  | bodyEnd hstate hlen => exact absurd (Or.inl hstate) hs
  | complete hstate => exact absurd (Or.inr hstate) hs
  | _ => exact absurd ht (by simp [Left])

/-- Behind the headers every byte that is taken is one of the body. -/
theorem bodylen_of_left {s t : Parser} {data : List UInt8} {used : ℕ} (hs : Left s)
    (h : appendBytes s data = .ok (t, used)) : t.msg.bodylen = s.msg.bodylen + used := by
  induction data generalizing s used with
  | nil =>
      cases h
      rfl
  | cons c rest ih =>
      rw [appendBytes] at h
      split_ifs at h with hdone
      · cases h
        rfl
      · have hbody := hs.resolve_right hdone
        obtain ⟨u, hu, h⟩ := bind_eq_ok.mp h
        obtain ⟨⟨v, n⟩, hrest, h⟩ := bind_eq_ok.mp h
        cases h
        have hulen : u.msg.bodylen = s.msg.bodylen + 1 := by
          rw [appendByte_body hbody, Except.ok.injEq, bodyStored] at hu
          rw [← hu]
          split_ifs
          · exact bodylen_setBody s [c]
          · exact bodylen_setBody s [c]
        rw [ih (left_appendByte c s u hs hu) hrest, hulen]
        omega

/-- The byte that leaves the headers is not one of the body. -/
theorem bodylen_lt_of_not_left {s t : Parser} {data : List UInt8} {used : ℕ}
    (hinv : Invariant s) (hs : ¬ Left s) (h : appendBytes s data = .ok (t, used))
    (ht : Left t) : t.msg.bodylen < used := by
  induction data generalizing s used with
  | nil =>
      cases h
      exact absurd ht hs
  | cons c rest ih =>
      rw [appendBytes, if_neg fun hdone => hs (Or.inr hdone)] at h
      obtain ⟨u, hu, h⟩ := bind_eq_ok.mp h
      obtain ⟨⟨v, n⟩, hrest, h⟩ := bind_eq_ok.mp h
      cases h
      by_cases hleft : Left u
      · obtain ⟨-, -, -, hmsg⟩ :=
          (byteStep_of_appendByte hinv hu).2.eq_of_left hinv hs hleft
        have hnil := hinv.header (fun hbody => hs (Or.inl hbody)) fun hdone => hs (Or.inr hdone)
        rw [bodylen_of_left hleft hrest, hmsg, HttpMessage.bodylen, hnil, List.length_nil]
        omega
      · have hlt := ih (invariant_appendByte c s u hinv hu) hleft hrest
        omega

/-- Body bytes do not change the announced length. -/
theorem getmsglen_run_left {s t : Parser} {data : List UInt8} (hs : Left s)
    (h : run appendByte s data = .ok t) : getmsglen t.msg = getmsglen s.msg := by
  have hkeep : ∀ c u v, (Left u ∧ getmsglen u.msg = getmsglen s.msg) →
      appendByte c u = .ok v → Left v ∧ getmsglen v.msg = getmsglen s.msg := by
    rintro c u v ⟨hleft, hlen⟩ hv
    refine ⟨left_appendByte c u v hleft hv, ?_⟩
    rcases hleft with hbody | hdone
    · rw [appendByte_body hbody, Except.ok.injEq, bodyStored] at hv
      rw [← hv, ← hlen]
      split_ifs
      · rfl
      · rfl
    · simp only [appendByte, hdone, Except.ok.injEq] at hv
      rw [← hv, hlen]
  exact (run_invariant hkeep ⟨hs, rfl⟩ h).2

/-- A head whose last byte leaves the headers. -/
theorem headAnnounces_of_left {head : List UInt8} (hne : head ≠ []) {v : Parser}
    (hv : appendBytes parserCreate head = .ok (v, head.length)) (hleft : Left v)
    (hvnil : v.msg.bodylen = 0) {n : ℕ} (htotal : (n : ℤ) = max 0 (getmsglen v.msg)) :
    HeadAnnounces head n := by
  obtain ⟨front, c, rfl⟩ := (List.eq_nil_or_concat' head).resolve_left hne
  obtain ⟨u, hu, hc⟩ := run_concat_eq_ok (run_of_appendBytes hv)
  have hinv := invariant_run invariant_parserCreate hu
  have hunot : ¬ Left u := by
    -- else the last byte would be one of the body
    intro huleft
    obtain ⟨used, hfront⟩ := appendBytes_of_run hu
    have hrun : run appendByte u [c] = .ok v := by rw [run_cons_ok hc, run_nil]
    obtain ⟨used', hlast⟩ := appendBytes_of_run hrun
    have hcount := bodylen_of_left huleft hlast
    have hle := (used_of_appendBytes hfront).1
    have hsum := hv.symm.trans (appendBytes_append_ok hfront hlast)
    have hused := congrArg Prod.snd (Except.ok.inj hsum)
    rw [List.length_append, List.length_singleton] at hused
    dsimp only at hused
    omega
  obtain ⟨rfl, hcr, hline, hmsg⟩ :=
    (byteStep_of_appendByte hinv hc).2.eq_of_left hinv hunot hleft
  refine ⟨run_isOk_iff_stepsSafe.mp ⟨v, run_of_appendBytes hv⟩, front, rfl, fun u' hu' => ?_⟩
  obtain rfl : u = u' := Except.ok.inj (hu.symm.trans hu')
  exact ⟨hcr, hline, by rw [← hmsg, htotal]⟩

/-- All bytes are taken, and the last ones of them as the body, only behind a head that
announces them. -/
theorem headAnnounces_of_appendBytes {head body : List UInt8} (hne : head ≠ []) {s : Parser}
    (h : appendBytes parserCreate (head ++ body) = .ok (s, (head ++ body).length))
    (hdone : s.pd.state = .complete) (hbody : s.msg.body = body) :
    HeadAnnounces head body.length := by
  have hlength : s.msg.bodylen = body.length := by rw [HttpMessage.bodylen, hbody]
  obtain ⟨v, hv, hvs⟩ := run_append_eq_ok (run_of_appendBytes h)
  obtain ⟨used, hused⟩ := appendBytes_of_run hv
  obtain ⟨used', hused'⟩ := appendBytes_of_run hvs
  -- the two parts are taken whole
  have hsum := congrArg Prod.snd (Except.ok.inj
    (h.symm.trans (appendBytes_append_ok hused hused')))
  rw [List.length_append] at hsum
  dsimp only at hsum
  have hle := (used_of_appendBytes hused).1
  have hle' := (used_of_appendBytes hused').1
  obtain rfl : used = head.length := by omega
  have hleft : Left v := by
    by_contra hnot
    have hinv := invariant_appendBytes invariant_parserCreate hused
    have hlt := bodylen_lt_of_not_left hinv hnot hused' (Or.inr hdone)
    omega
  have hcount := bodylen_of_left hleft hused'
  refine headAnnounces_of_left hne hused hleft (by omega) ?_
  rw [← getmsglen_run_left hleft hvs, ← hlength]
  exact (invariant_appendBytes invariant_parserCreate h).complete hdone

/-- The bytes that a head announces are taken as the body. -/
theorem appendBytes_of_headAnnounces {head body : List UInt8}
    (h : HeadAnnounces head body.length) :
    ∃ s, appendBytes parserCreate (head ++ body) = .ok (s, (head ++ body).length) ∧
      s.pd.state = .complete ∧ s.msg.body = body := by
  obtain ⟨hsafe, front, rfl, hfront⟩ := h
  obtain ⟨v, hv⟩ := run_isOk_iff_stepsSafe.mpr hsafe
  obtain ⟨u, hu, hc⟩ := run_concat_eq_ok hv
  obtain ⟨hcr, hline, htotal⟩ := hfront u hu
  have hinv := invariant_run invariant_parserCreate hu
  have hveq := (byteStep_of_appendByte hinv hc).2.eq_of_cr_lf hcr
  rw [if_pos hline] at hveq
  have hvmsg : v.msg = u.msg := by
    rw [hveq]
    rfl
  have hbody : v.msg.body = [] := by
    rw [hvmsg]
    exact hinv.body_nil hcr (by decide) (by decide)
  have hstate : v.pd.state = if getmsglen v.msg > 0 then .body else .complete := by
    rw [hvmsg, hveq]
    rfl
  have hhead : appendBytes parserCreate (front ++ [lf]) =
      .ok (v, (front ++ [lf]).length) := by
    have hone : appendBytes u [lf] = .ok (v, 1) := by
      rw [appendBytes, if_neg (by rw [hcr]; decide), hc]
      rfl
    rw [appendBytes_append_ok (appendBytes_of_run_incomplete hu (by rw [hcr]; decide)) hone,
      List.length_append]
    rfl
  obtain ⟨s, hs, hdone, hsmsg⟩ := appendBytes_announced hbody hstate (by rw [htotal, hvmsg])
  refine ⟨s, ?_, hdone, by rw [hsmsg]⟩
  rw [appendBytes_append_ok hhead hs, ← List.length_append]

/-- The head of a message whose headers the text format can carry announces what its
collected headers say. -/
theorem headAnnounces_iff {msg : HttpMessage} {p1 p2 p3 : CStr} (h : HeadOk msg p1 p2 p3)
    (n : ℕ) :
    HeadAnnounces (encodedText p1 p2 p3 msg.headers []) n ↔
      LinesFit msg p1 p2 p3 ∧ (n : ℤ) = max 0 (getmsglen (collected msg)) := by
  have htext := encodedText_eq_head p1 p2 p3 msg.headers []
  rw [List.append_nil] at htext
  constructor
  · rintro ⟨hsafe, front, hfront, hready⟩
    obtain rfl := List.append_cancel_right (htext.symm.trans hfront)
    obtain ⟨v, hv⟩ := run_isOk_iff_stepsSafe.mpr hsafe
    rw [hfront] at hv
    obtain ⟨u, hu, -⟩ := run_append_eq_ok hv
    obtain ⟨-, -, -, hmsg⟩ := (outcome_head h).post u hu
    refine ⟨(outcome_head h).isOk_iff.mp ⟨u, hu⟩, ?_⟩
    rw [← hmsg]
    exact (hready u hu).2.2
  · rintro ⟨hfit, htotal⟩
    obtain ⟨-, v, -, -, hv, -⟩ := appendBytes_head h hfit
    refine ⟨run_isOk_iff_stepsSafe.mp ⟨v, run_of_appendBytes hv⟩, _, htext, fun u hu => ?_⟩
    obtain ⟨-, hcr, hline, hmsg⟩ := (outcome_head h).post u hu
    refine ⟨hcr, by rw [hline]; rfl, ?_⟩
    rw [hmsg]
    exact htotal

/-! ## Encoding and parsing -/

/-- The bytes that the encoder prints in front of the chunks. -/
def textInFront (msg : HttpMessage) (p1 p2 p3 : CStr) (chunks : List (List UInt8)) : List UInt8 :=
  encodedText p1 p2 p3 (appendChunks msg chunks).headers msg.body

theorem textInFront_append (msg : HttpMessage) (p1 p2 p3 : CStr) {chunks : List (List UInt8)}
    (hne : ∀ chunk ∈ chunks, chunk ≠ []) :
    encodedText p1 p2 p3 (appendChunks msg chunks).headers (appendChunks msg chunks).body =
      textInFront msg p1 p2 p3 chunks ++ chunks.flatten := by
  rw [(appendChunks_spec msg hne).2.1, textInFront, encodedText, encodedText]
  simp only [List.append_assoc]

/-- The chunks survive behind any head that announces them, and no other. -/
theorem bodySurvives_iff_headAnnounces {msg : HttpMessage} {p1 p2 p3 : CStr}
    (hstart : msg.startLine = ⟨some p1, some p2, some p3⟩) {chunks : List (List UInt8)}
    (hne : ∀ chunk ∈ chunks, chunk ≠ [])
    (hfits : (encodedText p1 p2 p3 (appendChunks msg chunks).headers
      (appendChunks msg chunks).body).length ≤ intMax) :
    BodySurvives msg chunks ↔
      HeadAnnounces (textInFront msg p1 p2 p3 chunks) chunks.flatten.length := by
  have hbuffer := (encodedBuffer_eq ((appendChunks_spec msg hne).1.trans hstart) hfits).1
  rw [textInFront_append msg p1 p2 p3 hne] at hbuffer
  constructor
  · rintro ⟨text, s, htext, hparse, hdone, hsbody, -⟩
    rw [hbuffer, Option.some.injEq] at htext
    subst htext
    rw [httpcParserParse_none] at hparse
    have hfront : textInFront msg p1 p2 p3 chunks ≠ [] := by
      simp [textInFront, encodedText]
    exact headAnnounces_of_appendBytes hfront hparse hdone hsbody
  · intro h
    obtain ⟨s, hs, hdone, hsbody⟩ := appendBytes_of_headAnnounces h
    refine ⟨_, s, hbuffer, by rw [httpcParserParse_none, hs], hdone, hsbody, ?_⟩
    intro n hn t used ht
    rw [httpcParserParse_none] at ht
    exact incomplete_of_used_eq_length hs hn ht

/-- The chunks arrive as the body exactly when the parser leaves the headers right in
front of them and the headers that it has collected announce all chunks together; that
is, when the headers set before are such as the text format can carry and there was no
body, when the lines fit the line buffer and the oldest `Content-Length` announces all
chunks. -/
theorem bodySurvives_iff {msg : HttpMessage} {p1 p2 p3 : CStr}
    (hstart : msg.startLine = ⟨some p1, some p2, some p3⟩) (hok : StartLineOk p1 p2 p3)
    (chunks : List (List UInt8)) (hne : ∀ chunk ∈ chunks, chunk ≠ [])
    (hfits : (encodedText p1 p2 p3 (appendChunks msg chunks).headers
      (appendChunks msg chunks).body).length ≤ intMax) :
    (BodySurvives msg chunks ↔
      HeadAnnounces (textInFront msg p1 p2 p3 chunks) chunks.flatten.length) ∧
    ((∀ h ∈ msg.headers, HeaderOk h) → msg.body = [] →
      (BodySurvives msg chunks ↔ LinesFit msg p1 p2 p3 ∧ AnnouncesTotal msg chunks)) := by
  have hall := bodySurvives_iff_headAnnounces hstart hne hfits
  refine ⟨hall, fun hheaders hempty => ?_⟩
  have hhead : HeadOk (appendChunks msg chunks) p1 p2 p3 :=
    headOk_appendChunks ⟨hstart, hok, hheaders⟩ hne
  have hlen : chunks.flatten.length ≤ intMax := by
    rw [textInFront_append msg p1 p2 p3 hne, List.length_append] at hfits
    exact le_trans (Nat.le_add_left _ _) hfits
  have hlen' : msg.bodylen + chunks.flatten.length ≤ intMax := by
    rwa [HttpMessage.bodylen, hempty, List.length_nil, Nat.zero_add]
  rw [hall, textInFront, hempty, headAnnounces_iff hhead, linesFit_appendChunks_iff hne hlen',
    announcesTotal_iff hempty hne hlen]

/-- A message with a start line and nothing else. -/
def startOnlyMessage : HttpMessage :=
  { httpcMessageCreate with startLine := ⟨some getText, some rootText, some versionText⟩ }

theorem bodySurvives_iff_single :
    BodySurvives startOnlyMessage [bytes ['a', 'b']] ↔
      LinesFit startOnlyMessage getText rootText versionText ∧
        AnnouncesTotal startOnlyMessage [bytes ['a', 'b']] :=
  (bodySurvives_iff rfl ⟨by decide +kernel, by decide +kernel, by decide +kernel⟩ _
    (by decide +kernel) (by decide +kernel)).2 (by simp [startOnlyMessage, httpcMessageCreate]) rfl

/-- Of two chunks the parser takes the first one only, and leaves a byte. -/
theorem not_bodySurvives_two :
    (∃ text s, encodedBuffer (appendChunks startOnlyMessage [bytes ['a'], bytes ['b']]) true =
        some text ∧
      httpcParserParse none text = .ok (s, text.length - 1) ∧ s.pd.state = .complete ∧
      s.msg.body = bytes ['a']) ∧
    ¬ BodySurvives startOnlyMessage [bytes ['a'], bytes ['b']] := by
  have hrun : ∃ text s,
      encodedBuffer (appendChunks startOnlyMessage [bytes ['a'], bytes ['b']]) true = some text ∧
      httpcParserParse none text = .ok (s, text.length - 1) ∧ s.pd.state = .complete ∧
      s.msg.body = bytes ['a'] ∧ text.length - 1 ≠ text.length :=
    ⟨(encodedBuffer (appendChunks startOnlyMessage [bytes ['a'], bytes ['b']]) true).getD [],
      ((httpcParserParse none ((encodedBuffer (appendChunks startOnlyMessage
        [bytes ['a'], bytes ['b']]) true).getD [])).toOption.map Prod.fst).getD parserCreate,
      by decide +kernel⟩
  obtain ⟨text, s, hbuffer, hparse, hdone, hbody, hlength⟩ := hrun
  refine ⟨⟨text, s, hbuffer, hparse, hdone, hbody⟩, ?_⟩
  rintro ⟨text', s', hbuffer', hparse', -⟩
  obtain rfl : text = text' := Option.some.inj (hbuffer.symm.trans hbuffer')
  have hused := hparse.symm.trans hparse'
  exact hlength (congrArg Prod.snd (Except.ok.inj hused))

end LibSimple.Http
