import LibSimple.Http.LineParser

/-!
# The incremental parser

`_append`, `appendByte`, `appendBody` and `httpc_parser_parse` of
`httpparser.c`, and the invariant of the states between two bytes.
-/

namespace LibSimple.Http

open CLang Runs

namespace Parser

def setState (s : Parser) (state : HttpParserState) : Parser :=
  { s with pd := { s.pd with state := state } }

def setLastState (s : Parser) (state : HttpParserState) : Parser :=
  { s with pd := { s.pd with lastState := state } }

def setLine (s : Parser) (line : List UInt8) : Parser :=
  { s with pd := { s.pd with linedata := line } }

def setMsg (s : Parser) (msg : HttpMessage) : Parser := { s with msg := msg }

def setBody (s : Parser) (body : List UInt8) : Parser :=
  s.setMsg { s.msg with body := body }

@[simp] theorem setState_msg (s : Parser) (st) : (s.setState st).msg = s.msg := rfl
@[simp] theorem setState_state (s : Parser) (st) : (s.setState st).pd.state = st := rfl
@[simp] theorem setState_lastState (s : Parser) (st) :
    (s.setState st).pd.lastState = s.pd.lastState := rfl
@[simp] theorem setState_linedata (s : Parser) (st) :
    (s.setState st).pd.linedata = s.pd.linedata := rfl
@[simp] theorem setState_lineBufsize (s : Parser) (st) :
    (s.setState st).pd.lineBufsize = s.pd.lineBufsize := rfl
@[simp] theorem setLastState_msg (s : Parser) (st) : (s.setLastState st).msg = s.msg := rfl
@[simp] theorem setLastState_lastState (s : Parser) (st) :
    (s.setLastState st).pd.lastState = st := rfl
@[simp] theorem setLastState_linedata (s : Parser) (st) :
    (s.setLastState st).pd.linedata = s.pd.linedata := rfl
@[simp] theorem setLastState_lineBufsize (s : Parser) (st) :
    (s.setLastState st).pd.lineBufsize = s.pd.lineBufsize := rfl
@[simp] theorem setLine_msg (s : Parser) (line) : (s.setLine line).msg = s.msg := rfl
@[simp] theorem setLine_state (s : Parser) (line) :
    (s.setLine line).pd.state = s.pd.state := rfl
@[simp] theorem setLine_lastState (s : Parser) (line) :
    (s.setLine line).pd.lastState = s.pd.lastState := rfl
@[simp] theorem setLine_linedata (s : Parser) (line) :
    (s.setLine line).pd.linedata = line := rfl
@[simp] theorem setLine_lineBufsize (s : Parser) (line) :
    (s.setLine line).pd.lineBufsize = s.pd.lineBufsize := rfl
@[simp] theorem setMsg_msg (s : Parser) (msg) : (s.setMsg msg).msg = msg := rfl
@[simp] theorem setMsg_pd (s : Parser) (msg) : (s.setMsg msg).pd = s.pd := rfl
@[simp] theorem setBody_msg (s : Parser) (body) :
    (s.setBody body).msg = { s.msg with body := body } := rfl
@[simp] theorem setBody_pd (s : Parser) (body) : (s.setBody body).pd = s.pd := rfl

end Parser

/-! ## The line buffer -/

/-- `EXPSIZE` -/
def expsize : ℕ := 128

/-- `pd->linedata[pd->line_datasize++] = c` -/
def storeChar (c : UInt8) (s : Parser) : Except Fault Parser :=
  if s.pd.lineDatasize < s.pd.lineBufsize then .ok (s.setLine (s.pd.linedata ++ [c]))
  else .error .lineWriteOutOfBounds

/-- `_append` -/
def append (c : UInt8) (s : Parser) : Except Fault Parser :=
  if s.pd.lineDatasize + 1 > s.pd.lineBufsize then
    if s.pd.lineBufsize + expsize > intMax then .error .lineBufsizeOverflow
    else storeChar c { s with pd := { s.pd with lineBufsize := s.pd.lineBufsize + expsize } }
  else storeChar c s

/-- The length of the longest line that fits a buffer whose size is an `int`. -/
def maxLine : ℕ := 2147483520

/-- The buffer holds the line, and has grown in steps of `EXPSIZE`. -/
structure BufferOk (pd : ParserData) : Prop where
  fits : pd.lineDatasize ≤ pd.lineBufsize
  bounded : pd.lineBufsize ≤ maxLine
  grown : expsize ∣ pd.lineBufsize

/-- The buffer size after room for one more byte has been made. -/
def grownBufsize (pd : ParserData) : ℕ :=
  if pd.lineDatasize + 1 > pd.lineBufsize then pd.lineBufsize + expsize else pd.lineBufsize

/-- The state after a successful `_append`. -/
def appended (c : UInt8) (s : Parser) : Parser :=
  { s with pd := { s.pd with
      linedata := s.pd.linedata ++ [c], lineBufsize := grownBufsize s.pd } }

@[simp] theorem appended_msg (c : UInt8) (s : Parser) : (appended c s).msg = s.msg := rfl
@[simp] theorem appended_state (c : UInt8) (s : Parser) :
    (appended c s).pd.state = s.pd.state := rfl
@[simp] theorem appended_lastState (c : UInt8) (s : Parser) :
    (appended c s).pd.lastState = s.pd.lastState := rfl
@[simp] theorem appended_linedata (c : UInt8) (s : Parser) :
    (appended c s).pd.linedata = s.pd.linedata ++ [c] := rfl

theorem expsize_eq : expsize = 128 := rfl
theorem maxLine_eq : maxLine = 2147483520 := rfl

/-- A buffer that has to grow for a line below `maxLine` stays below it. -/
theorem grownBufsize_spec {pd : ParserData} (hbuf : BufferOk pd)
    (h : pd.lineDatasize < maxLine) :
    pd.lineDatasize + 1 ≤ grownBufsize pd ∧ grownBufsize pd ≤ maxLine ∧
      expsize ∣ grownBufsize pd := by
  obtain ⟨hfits, hbounded, k, hk⟩ := hbuf
  rw [grownBufsize]
  split_ifs with hgrow
  · refine ⟨?_, ?_, ⟨k + 1, by rw [hk]; rfl⟩⟩
    · have := expsize_eq
      omega
    · -- both bounds are multiples of the step
      rw [maxLine_eq] at *
      rw [expsize_eq] at *
      omega
  · exact ⟨by omega, hbounded, k, hk⟩

/-- `_append` writes inside the buffer as long as the buffer size can grow. -/
theorem append_of_lt {c : UInt8} {s : Parser} (hbuf : BufferOk s.pd)
    (h : s.pd.lineDatasize < maxLine) : append c s = .ok (appended c s) := by
  obtain ⟨hroom, hbounded, -⟩ := grownBufsize_spec hbuf h
  have hmax := maxLine_eq
  have hint := intMax_eq
  rw [append, appended]
  rw [grownBufsize] at *
  split_ifs at * with hgrow hover
  · omega
  · exact if_pos hroom
  · exact if_pos hroom

theorem append_of_ge {c : UInt8} {s : Parser} (hbuf : BufferOk s.pd)
    (h : maxLine ≤ s.pd.lineDatasize) : append c s = .error .lineBufsizeOverflow := by
  have hfits := hbuf.fits
  have hexp := expsize_eq
  have hmax := maxLine_eq
  have hint := intMax_eq
  have hbounded := hbuf.bounded
  rw [append, if_pos (by omega), if_pos (by omega)]

theorem bufferOk_appended {c : UInt8} {s : Parser} (hbuf : BufferOk s.pd)
    (h : s.pd.lineDatasize < maxLine) : BufferOk (appended c s).pd := by
  obtain ⟨hroom, hbounded, hgrown⟩ := grownBufsize_spec hbuf h
  refine ⟨?_, hbounded, hgrown⟩
  simpa [ParserData.lineDatasize, appended] using hroom

theorem bufferOk_of_le {pd pd' : ParserData} (hbuf : BufferOk pd)
    (hsize : pd'.lineBufsize = pd.lineBufsize)
    (hlen : pd'.linedata.length ≤ pd.linedata.length) : BufferOk pd' where
  fits := by
    rw [hsize]
    exact hlen.trans hbuf.fits
  bounded := by rw [hsize]; exact hbuf.bounded
  grown := by rw [hsize]; exact hbuf.grown

/-! ## One byte -/

/-- The line just ended is parsed by the parser that `last_state` selects. -/
def finishLine (s : Parser) : Except Fault Parser :=
  if s.pd.lastState = .startline then parseStartLine s else parseHeaderLine s

/-- The line up to the match of `strstr`, all of it when there is none. -/
def truncateAt (line : List UInt8) : Option ℕ → List UInt8
  | some i => line.take i
  | none => line

/-- `appendByte` -/
def appendByte (c : UInt8) (s : Parser) : Except Fault Parser :=
  match s.pd.state with
  | .startline => do
      let s ← append c s
      return if c = cr then (s.setLastState .startline).setState .cr else s
  | .headers => do
      let s ← append c s
      return if c = cr then (s.setLastState .headers).setState .cr else s
  | .cr => do
      let s ← append c s
      return if c = lf then
          if s.pd.linedata.take 2 = [cr, lf] then
            if getmsglen s.msg > 0 then s.setState .body else s.setState .complete
          else s.setState .crlf
        else s.setState s.pd.lastState
  | .crlf =>
      if isblank c then
        match strstrPair cr lf s.pd.linedata with
        | none => .error .lineReadOutOfBounds
        | some r => .ok ((s.setState .lsw).setLine (truncateAt s.pd.linedata r))
      else do
        let s ← finishLine s
        let s ← append c (s.setLine [])
        return if c = cr then s.setState .cr else s.setState .headers
  | .lsw => if isblank c then .ok s else append c (s.setState s.pd.lastState)
  | .body =>
      let s := s.setBody (s.msg.body ++ [c])
      .ok (if getmsglen s.msg = s.msg.bodylen then s.setState .complete else s)
  | .complete => .ok s
  | .unknown => .ok s

/-- `appendBody`, with its return value. -/
def appendBody (p : List UInt8) (len : ℤ) (s : Parser) : Except Fault (Parser × ℤ) :=
  if len < 0 then .error .negativeCopy
  else
    let s := s.setBody (s.msg.body ++ p.take len.toNat)
    .ok (if getmsglen s.msg = s.msg.bodylen then s.setState .complete else s, len)

theorem append_failsIn (c : UInt8) (s : Parser) : FailsIn Fault.OfLine (append c s) := by
  have hstore : ∀ s, FailsIn Fault.OfLine (storeChar c s) := by
    intro s
    unfold storeChar
    split_ifs
    · exact .ok _
    · exact .error trivial
  unfold append
  split_ifs
  · exact .error trivial
  · exact hstore _
  · exact hstore s

theorem appendByte_failsIn (c : UInt8) (s : Parser) :
    FailsIn Fault.OfLine (appendByte c s) := by
  unfold appendByte
  cases s.pd.state with
  | startline | headers | cr => exact (append_failsIn c s).bind fun t => .ok _
  | crlf =>
      by_cases hblank : isblank c = true
      · simp only [hblank, if_true]
        cases strstrPair cr lf s.pd.linedata with
        | none => exact .error trivial
        | some r => exact .ok _
      · have hline : FailsIn Fault.OfLine (finishLine s) := by
          unfold finishLine
          split_ifs
          · exact parseStartLine_failsIn s
          · exact parseHeaderLine_failsIn s
        simp only [hblank]
        exact hline.bind fun t => (append_failsIn c _).bind fun u => .ok _
  | lsw =>
      dsimp only
      split_ifs
      · exact .ok _
      · exact append_failsIn c _
  | body | complete | unknown => exact .ok _

/-! ## A block of bytes -/

/-- The message and parser data that `httpc_parser_parse` makes when there is
no saved message.  `last_state` is not initialised there; no branch reads it
before the first CR of the start line has set it. -/
def parserCreate : Parser where
  msg := httpcMessageCreate
  pd := { linedata := [], lineBufsize := 0, state := .startline, lastState := .unknown }

/-- The loop of `httpc_parser_parse`; `fuel` bounds the number of rounds. -/
def parseLoop (fuel : ℕ) (s : Parser) (data : List UInt8) (used : ℕ) :
    Except Fault (Parser × ℕ) :=
  match data with
  | [] => .ok (s, used)
  | c :: rest =>
      if s.pd.state = .complete then .ok (s, used)
      else
        match fuel with
        | 0 => .error .noProgress
        | fuel + 1 =>
            if s.pd.state = .body then
              match httpcMessageGetValue s.msg contentLength with
              | none => .error .nullContentLength
              | some v => do
                  let expect := atoi v - s.msg.bodylen
                  let len : ℤ := (c :: rest).length
                  let (s, rc) ← appendBody (c :: rest) (if len > expect then expect else len) s
                  parseLoop fuel s ((c :: rest).drop rc.toNat) (used + rc.toNat)
            else do
              let s ← appendByte c s
              parseLoop fuel s rest (used + 1)

/-- The body of that loop: the state after the round, and `rc`. -/
def parseRound (s : Parser) (c : UInt8) (rest : List UInt8) : Except Fault (Parser × ℤ) :=
  if s.pd.state = .body then
    match httpcMessageGetValue s.msg contentLength with
    | none => .error .nullContentLength
    | some v =>
        let expect := atoi v - s.msg.bodylen
        let len : ℤ := (c :: rest).length
        appendBody (c :: rest) (if len > expect then expect else len) s
  else do
    let s ← appendByte c s
    return (s, 1)

theorem parseLoop_succ (fuel : ℕ) {s : Parser} (h : s.pd.state ≠ .complete) (c : UInt8)
    (rest : List UInt8) (used : ℕ) :
    parseLoop (fuel + 1) s (c :: rest) used = parseRound s c rest >>= fun r =>
      parseLoop fuel r.1 ((c :: rest).drop r.2.toNat) (used + r.2.toNat) := by
  rw [parseLoop, if_neg h, parseRound]
  split_ifs with hbody
  · cases httpcMessageGetValue s.msg contentLength with
    | none => rfl
    | some v => rfl
  · cases appendByte c s with
    | error f => rfl
    | ok s' => rfl

/-- `httpc_parser_parse`: the message and `*used`.  A round that consumes a byte
uses up one unit of fuel, so `len` rounds are enough unless one makes no
progress. -/
def httpcParserParse (saved : Option Parser) (data : List UInt8) :
    Except Fault (Parser × ℕ) :=
  parseLoop data.length (saved.getD parserCreate) data 0

end LibSimple.Http
