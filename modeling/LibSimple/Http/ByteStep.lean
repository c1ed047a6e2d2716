import LibSimple.Http.Parser

/-!
# One byte of the parser

What `appendByte` can do is said once, by the relation `ByteStep`; when it does
it without an error is said by `StepSafe`.  The invariant between two bytes
follows from the relation.
-/

namespace LibSimple.Http

open CLang Runs

/-! ## Finishing a line -/

/-- The pending line is one that its parser can handle. -/
def LineOk (s : Parser) : Prop :=
  s.pd.lastState = .startline ∨ HeaderLineOk s.pd.linedata

instance (s : Parser) : Decidable (LineOk s) := inferInstanceAs (Decidable (_ ∨ _))

/-- The message after the pending line. -/
def finishedMsg (s : Parser) : HttpMessage :=
  if s.pd.lastState = .startline then
    { s.msg with startLine := startLineTexts s.pd.linedata }
  else
    httpcMessageSetValue s.msg (CStr.ofBuffer (headerName s.pd.linedata))
      (CStr.ofBuffer (headerValue s.pd.linedata))

theorem getLast?_of_suffix_crlf {line : List UInt8} (h : [cr, lf] <:+ line) :
    line.getLast? = some lf := by
  obtain ⟨pre, rfl⟩ := h
  simp

theorem finishLine_eq {s : Parser} (hend : [cr, lf] <:+ s.pd.linedata) (h : LineOk s) :
    finishLine s = .ok (s.setMsg (finishedMsg s)) := by
  rw [finishLine, finishedMsg]
  split_ifs with hlast
  · rw [parseStartLine_eq (getLast?_of_suffix_crlf hend)]
    rfl
  · rw [parseHeaderLine_eq (h.resolve_left hlast)]
    rfl

theorem finishLine_fails {s : Parser} (h : ¬ LineOk s) : ∃ f, finishLine s = .error f := by
  rw [LineOk, not_or] at h
  rw [finishLine, if_neg h.1]
  exact parseHeaderLine_fails h.2

@[simp] theorem body_finishedMsg (s : Parser) : (finishedMsg s).body = s.msg.body := by
  rw [finishedMsg]
  split_ifs <;> rfl

/-! ## The invariant -/

structure Invariant (s : Parser) : Prop where
  buffer : BufferOk s.pd
  known : s.pd.state ≠ .unknown
  lastState : s.pd.state = .cr ∨ s.pd.state = .crlf ∨ s.pd.state = .lsw →
    s.pd.lastState = .startline ∨ s.pd.lastState = .headers
  cr : s.pd.state = .cr → s.pd.linedata.getLast? = some cr
  crlf : s.pd.state = .crlf → [CLang.cr, lf] <:+ s.pd.linedata
  header : s.pd.state ≠ .body → s.pd.state ≠ .complete → s.msg.body = []
  body : s.pd.state = .body → (s.msg.bodylen : ℤ) < getmsglen s.msg
  complete : s.pd.state = .complete → (s.msg.bodylen : ℤ) = max 0 (getmsglen s.msg)

theorem invariant_parserCreate : Invariant parserCreate := by
  constructor
  case buffer => exact ⟨le_refl _, Nat.zero_le _, dvd_zero _⟩
  all_goals simp [parserCreate, httpcMessageCreate]

/-! ## The relation of one step -/

/-- The ways in which one byte changes the parser. -/
inductive ByteStep (c : UInt8) (s : Parser) : Parser → Prop
  | text (hstate : s.pd.state = .startline ∨ s.pd.state = .headers) (hc : c ≠ cr) :
      ByteStep c s (appended c s)
  | textCr (hstate : s.pd.state = .startline ∨ s.pd.state = .headers) (hc : c = cr) :
      ByteStep c s (((appended c s).setLastState s.pd.state).setState .cr)
  | lineEnd (hstate : s.pd.state = .cr) (hc : c = lf)
      (hline : (s.pd.linedata ++ [lf]).take 2 ≠ [cr, lf]) :
      ByteStep c s ((appended c s).setState .crlf)
  | blankLine (hstate : s.pd.state = .cr) (hc : c = lf)
      (hline : (s.pd.linedata ++ [lf]).take 2 = [cr, lf]) :
      ByteStep c s ((appended c s).setState (if getmsglen s.msg > 0 then .body else .complete))
  | strayCr (hstate : s.pd.state = .cr) (hc : c ≠ lf) :
      ByteStep c s ((appended c s).setState s.pd.lastState)
  | fold (hstate : s.pd.state = .crlf) (hc : isblank c = true) (r : Option ℕ)
      (hr : strstrPair cr lf s.pd.linedata = some r) :
      ByteStep c s ((s.setState .lsw).setLine (truncateAt s.pd.linedata r))
  | nextLine (hstate : s.pd.state = .crlf) (hc : isblank c = false) (hline : LineOk s) :
      ByteStep c s ((appended c ((s.setMsg (finishedMsg s)).setLine [])).setState
        (if c = cr then .cr else .headers))
  | foldBlank (hstate : s.pd.state = .lsw) (hc : isblank c = true) : ByteStep c s s
  | foldText (hstate : s.pd.state = .lsw) (hc : isblank c = false) :
      ByteStep c s (appended c (s.setState s.pd.lastState))
  | body (hstate : s.pd.state = .body)
      (hlen : getmsglen s.msg ≠ (s.msg.bodylen + 1 : ℕ)) :
      ByteStep c s (s.setBody (s.msg.body ++ [c]))
  | bodyEnd (hstate : s.pd.state = .body)
      (hlen : getmsglen s.msg = (s.msg.bodylen + 1 : ℕ)) :
      ByteStep c s ((s.setBody (s.msg.body ++ [c])).setState .complete)
  | complete (hstate : s.pd.state = .complete) : ByteStep c s s

/-- The states in which the byte `c` cannot run into an undefined operation. -/
def StepSafe (c : UInt8) (s : Parser) : Prop :=
  match s.pd.state with
  | .startline | .headers | .cr => s.pd.lineDatasize < maxLine
  | .crlf => isblank c = true ∨ LineOk s
  | .lsw => isblank c = true ∨ s.pd.lineDatasize < maxLine
  | _ => True

instance (c : UInt8) (s : Parser) : Decidable (StepSafe c s) := by
  unfold StepSafe
  split <;> infer_instance

theorem bufferOk_clearedLine {s : Parser} (hbuf : BufferOk s.pd) (msg : HttpMessage) :
    BufferOk ((s.setMsg msg).setLine []).pd :=
  bufferOk_of_le hbuf rfl (Nat.zero_le _)

/-- A byte that is safe in a state is processed, by one of the listed steps. -/
theorem byteStep_of_safe {c : UInt8} {s : Parser} (hinv : Invariant s)
    (hsafe : StepSafe c s) : ∃ t, appendByte c s = .ok t ∧ ByteStep c s t := by
  have hbuf := hinv.buffer
  rw [StepSafe] at hsafe
  cases hstate : s.pd.state with
  | unknown => exact absurd hstate hinv.known
  | startline =>
      simp only [hstate] at hsafe
      simp only [appendByte, hstate, append_of_lt hbuf hsafe, ok_bind, pure_eq_ok]
      split_ifs with hc
      · refine ⟨_, rfl, ?_⟩
        rw [← hstate]
        exact .textCr (Or.inl hstate) hc
      · exact ⟨_, rfl, .text (Or.inl hstate) hc⟩
  | headers =>
      simp only [hstate] at hsafe
      simp only [appendByte, hstate, append_of_lt hbuf hsafe, ok_bind, pure_eq_ok]
      split_ifs with hc
      · refine ⟨_, rfl, ?_⟩
        rw [← hstate]
        exact .textCr (Or.inr hstate) hc
      · exact ⟨_, rfl, .text (Or.inr hstate) hc⟩
  | cr =>
      simp only [hstate] at hsafe
      simp only [appendByte, hstate, append_of_lt hbuf hsafe, ok_bind, pure_eq_ok]
      by_cases hc : c = lf
      · subst hc
        rw [if_pos rfl]
        by_cases hline : (s.pd.linedata ++ [lf]).take 2 = [cr, lf]
        · have hstep := ByteStep.blankLine hstate rfl hline
          by_cases hlen : getmsglen s.msg > 0
          · rw [if_pos hlen] at hstep
            exact ⟨_, congrArg Except.ok ((if_pos hline).trans (if_pos hlen)), hstep⟩
          · rw [if_neg hlen] at hstep
            exact ⟨_, congrArg Except.ok ((if_pos hline).trans (if_neg hlen)), hstep⟩
        · exact ⟨_, congrArg Except.ok (if_neg hline), .lineEnd hstate rfl hline⟩
      · exact ⟨_, congrArg Except.ok (if_neg hc), .strayCr hstate hc⟩
  | crlf =>
      simp only [hstate] at hsafe
      have hend := hinv.crlf hstate
      cases hblank : isblank c with
      | true =>
          obtain ⟨r, hr⟩ := strstrPair_of_suffix hend
          exact ⟨_, by simp only [appendByte, hstate, hblank, if_true, hr],
            .fold hstate hblank r hr⟩
      | false =>
          have hline : LineOk s := hsafe.resolve_left (by simp [hblank])
          have hcleared := bufferOk_clearedLine hbuf (finishedMsg s)
          have happend := append_of_lt (c := c) hcleared
            (show 0 < maxLine from by rw [maxLine_eq]; decide)
          have hstep := ByteStep.nextLine hstate hblank hline
          simp only [appendByte, hstate, hblank, finishLine_eq hend hline, ok_bind, happend,
            pure_eq_ok, Bool.false_eq_true, if_false]
          split_ifs at hstep ⊢ with hc
          · exact ⟨_, rfl, hstep⟩
          · exact ⟨_, rfl, hstep⟩
  | lsw =>
      simp only [hstate] at hsafe
      cases hblank : isblank c with
      | true =>
          exact ⟨s, by simp only [appendByte, hstate, hblank, if_true],
            .foldBlank hstate hblank⟩
      | false =>
          have hlen := hsafe.resolve_left (by simp [hblank])
          have happend := append_of_lt (c := c) (s := s.setState s.pd.lastState)
            (bufferOk_of_le hbuf rfl (le_refl _)) hlen
          refine ⟨_, ?_, .foldText hstate hblank⟩
          simp only [appendByte, hstate, hblank, Bool.false_eq_true, if_false, happend]
  | body =>
      have hlen : (s.setBody (s.msg.body ++ [c])).msg.bodylen = s.msg.bodylen + 1 :=
        List.length_append
      by_cases hdone : getmsglen s.msg = (s.msg.bodylen + 1 : ℕ)
      · refine ⟨_, ?_, .bodyEnd hstate hdone⟩
        simp only [appendByte, hstate]
        exact congrArg Except.ok (if_pos (hdone.trans (by rw [hlen])))
      · refine ⟨_, ?_, .body hstate hdone⟩
        simp only [appendByte, hstate]
        exact congrArg Except.ok (if_neg fun h => hdone (h.trans (by rw [hlen])))
  | complete =>
      exact ⟨s, by simp only [appendByte, hstate], .complete hstate⟩

theorem appendByte_fails {c : UInt8} {s : Parser} (hinv : Invariant s)
    (hsafe : ¬ StepSafe c s) : ∃ f, appendByte c s = .error f := by
  have hbuf := hinv.buffer
  rw [StepSafe] at hsafe
  cases hstate : s.pd.state with
  | unknown => exact absurd hstate hinv.known
  | startline | headers | cr =>
      simp only [hstate, not_lt] at hsafe
      exact ⟨.lineBufsizeOverflow,
        by simp only [appendByte, hstate, append_of_ge hbuf hsafe, error_bind]⟩
  | crlf =>
      simp only [hstate, not_or, Bool.not_eq_true] at hsafe
      obtain ⟨f, hf⟩ := finishLine_fails hsafe.2
      exact ⟨f, by simp only [appendByte, hstate, hsafe.1, Bool.false_eq_true, if_false, hf,
        error_bind]⟩
  | lsw =>
      simp only [hstate, not_or, Bool.not_eq_true, not_lt] at hsafe
      have happend := append_of_ge (c := c) (s := s.setState s.pd.lastState)
        (bufferOk_of_le hbuf rfl (le_refl _)) hsafe.2
      exact ⟨.lineBufsizeOverflow,
        by simp only [appendByte, hstate, hsafe.1, Bool.false_eq_true, if_false, happend]⟩
  | body | complete => simp [hstate] at hsafe

/-- Inversion of `appendByte`. -/
theorem byteStep_of_appendByte {c : UInt8} {s t : Parser} (hinv : Invariant s)
    (h : appendByte c s = .ok t) : StepSafe c s ∧ ByteStep c s t := by
  by_cases hsafe : StepSafe c s
  · obtain ⟨t', ht', hstep⟩ := byteStep_of_safe hinv hsafe
    rw [h, Except.ok.injEq] at ht'
    subst ht'
    exact ⟨hsafe, hstep⟩
  · obtain ⟨f, hf⟩ := appendByte_fails hinv hsafe
    rw [hf] at h
    cases h

theorem appendByte_isOk_iff {c : UInt8} {s : Parser} (hinv : Invariant s) :
    (∃ t, appendByte c s = .ok t) ↔ StepSafe c s := by
  constructor
  · rintro ⟨t, ht⟩
    exact (byteStep_of_appendByte hinv ht).1
  · intro hsafe
    obtain ⟨t, ht, -⟩ := byteStep_of_safe hinv hsafe
    exact ⟨t, ht⟩

/-! ## Inversion by state -/

/-- The states in which a line of text is being collected. -/
def InText (s : Parser) : Prop := s.pd.state = .startline ∨ s.pd.state = .headers

theorem ByteStep.eq_of_inText {c : UInt8} {s t : Parser} (hs : InText s) (hc : c ≠ cr)
    (h : ByteStep c s t) : t = appended c s := by
  cases h with
  | text hstate hc' => rfl
  | textCr hstate hc' => exact absurd hc' hc
  | _ => rcases hs with hs | hs <;> simp_all

theorem ByteStep.eq_of_inText_cr {s t : Parser} (hs : InText s) (h : ByteStep cr s t) :
    t = ((appended cr s).setLastState s.pd.state).setState .cr := by
  cases h with
  | text hstate hc => exact absurd rfl hc
  | textCr hstate hc => rfl
  | _ => rcases hs with hs | hs <;> simp_all

theorem ByteStep.eq_of_cr_lf {s t : Parser} (hs : s.pd.state = .cr) (h : ByteStep lf s t) :
    t = (appended lf s).setState
      (if (s.pd.linedata ++ [lf]).take 2 = [cr, lf] then
        (if getmsglen s.msg > 0 then .body else .complete) else .crlf) := by
  cases h with
  | lineEnd hstate hc hline => rw [if_neg hline]
  | blankLine hstate hc hline => rw [if_pos hline]
  | strayCr hstate hc => exact absurd rfl hc
  | _ => simp_all

theorem ByteStep.eq_of_crlf {c : UInt8} {s t : Parser} (hs : s.pd.state = .crlf)
    (hc : isblank c = false) (h : ByteStep c s t) :
    t = (appended c ((s.setMsg (finishedMsg s)).setLine [])).setState
      (if c = cr then .cr else .headers) := by
  cases h with
  | fold hstate hc' => simp_all
  | nextLine hstate hc' hline => rfl
  | _ => simp_all

/-! ## The invariant is kept -/

/-- In the two text states the invariant asks little. -/
theorem Invariant.of_text {t : Parser} (hbuf : BufferOk t.pd)
    (hstate : t.pd.state = .startline ∨ t.pd.state = .headers) (hbody : t.msg.body = []) :
    Invariant t := by
  constructor
  case buffer => exact hbuf
  all_goals rcases hstate with h | h <;> simp [h, hbody]

theorem Invariant.body_nil {s : Parser} (hinv : Invariant s)
    {state : HttpParserState} (hstate : s.pd.state = state)
    (hbody : state ≠ .body) (hcomplete : state ≠ .complete) : s.msg.body = [] :=
  hinv.header (hstate ▸ hbody) (hstate ▸ hcomplete)

/-- In the two text states a safe byte fits the line, and there is no body yet. -/
theorem Invariant.of_safe_text {c : UInt8} {s : Parser} (hinv : Invariant s)
    (hsafe : StepSafe c s) (hstate : s.pd.state = .startline ∨ s.pd.state = .headers) :
    s.pd.lineDatasize < maxLine ∧ s.msg.body = [] := by
  rw [StepSafe] at hsafe
  rcases hstate with h | h
  · exact ⟨by simpa only [h] using hsafe, hinv.body_nil h (by decide) (by decide)⟩
  · exact ⟨by simpa only [h] using hsafe, hinv.body_nil h (by decide) (by decide)⟩

theorem invariant_byteStep {c : UInt8} {s t : Parser} (hinv : Invariant s)
    (hsafe : StepSafe c s) (hstep : ByteStep c s t) : Invariant t := by
  have hbuf := hinv.buffer
  rw [StepSafe] at hsafe
  cases hstep with
  | text hstate hc =>
      obtain ⟨hlen, hbody⟩ := hinv.of_safe_text hsafe hstate
      exact .of_text (bufferOk_appended hbuf hlen) hstate hbody
  | textCr hstate hc =>
      obtain ⟨hlen, hbody⟩ := hinv.of_safe_text hsafe hstate
      constructor
      case buffer => exact bufferOk_of_le (bufferOk_appended (c := c) hbuf hlen) rfl le_rfl
      all_goals simp [hc, hstate, hbody]
  | lineEnd hstate hc hline =>
      simp only [hstate] at hsafe
      have hbody := hinv.body_nil hstate (by decide) (by decide)
      have hlast := hinv.lastState (Or.inl hstate)
      obtain ⟨pre, hpre⟩ := List.getLast?_eq_some_iff.mp (hinv.cr hstate)
      constructor
      case buffer => exact bufferOk_of_le (bufferOk_appended (c := c) hbuf hsafe) rfl le_rfl
      case crlf => exact fun _ => ⟨pre, by simp [hc, hpre]⟩
      all_goals simp [hlast, hbody]
  | blankLine hstate hc hline =>
      simp only [hstate] at hsafe
      have hbody := hinv.body_nil hstate (by decide) (by decide)
      constructor
      case buffer => exact bufferOk_of_le (bufferOk_appended (c := c) hbuf hsafe) rfl le_rfl
      all_goals split_ifs with hlen <;> simp [HttpMessage.bodylen, hbody] <;> omega
  | strayCr hstate hc =>
      simp only [hstate] at hsafe
      exact .of_text (bufferOk_of_le (bufferOk_appended (c := c) hbuf hsafe) rfl le_rfl)
        (hinv.lastState (Or.inl hstate)) (hinv.body_nil hstate (by decide) (by decide))
  | fold hstate hc r hr =>
      have hbody := hinv.body_nil hstate (by decide) (by decide)
      have hlast := hinv.lastState (Or.inr (Or.inl hstate))
      have hshort : (truncateAt s.pd.linedata r).length ≤ s.pd.linedata.length := by
        cases r with
        | none => exact le_rfl
        | some i => exact List.length_take_le' _ _
      constructor
      case buffer => exact bufferOk_of_le hbuf rfl hshort
      all_goals simp [hlast, hbody]
  | nextLine hstate hc hline =>
      have hbody := hinv.body_nil hstate (by decide) (by decide)
      have hlast := hinv.lastState (Or.inr (Or.inl hstate))
      have happended := bufferOk_appended (c := c)
        (bufferOk_clearedLine hbuf (finishedMsg s)) (by rw [maxLine_eq]; exact Nat.zero_lt_succ _)
      split_ifs with hcr
      · constructor
        case buffer => exact bufferOk_of_le happended rfl le_rfl
        all_goals simp [hlast, hbody, hcr]
      · exact .of_text (bufferOk_of_le happended rfl le_rfl) (Or.inr rfl)
          ((body_finishedMsg s).trans hbody)
  | foldBlank hstate hc => exact hinv
  | foldText hstate hc =>
      simp only [hstate, hc, Bool.false_eq_true, false_or] at hsafe
      exact .of_text (bufferOk_appended (bufferOk_of_le hbuf rfl le_rfl) hsafe)
        (hinv.lastState (Or.inr (Or.inr hstate))) (hinv.body_nil hstate (by decide) (by decide))
  | body hstate hlen =>
      have hlt := hinv.body hstate
      constructor
      case buffer => exact hbuf
      all_goals simp [hstate, HttpMessage.bodylen] at hlen hlt ⊢
      omega
  | bodyEnd hstate hlen =>
      constructor
      case buffer => exact bufferOk_of_le hbuf rfl le_rfl
      all_goals simp [HttpMessage.bodylen] at hlen ⊢
      omega
  | complete hstate => exact hinv

theorem invariant_appendByte (c : UInt8) (s t : Parser) (hinv : Invariant s)
    (h : appendByte c s = .ok t) : Invariant t := by
  obtain ⟨hsafe, hstep⟩ := byteStep_of_appendByte hinv h
  exact invariant_byteStep hinv hsafe hstep

theorem invariant_run {s t : Parser} {data : List UInt8} (hinv : Invariant s)
    (h : run appendByte s data = .ok t) : Invariant t :=
  run_invariant invariant_appendByte hinv h

end LibSimple.Http
