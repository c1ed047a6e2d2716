import LibSimple.Http.Message
import LibSimple.Support.Runs

/-!
# Line parsing

`parseStartLine` and `parseHeaderLine` of `httpparser.c`, on the line buffer of
the parser.  Every access is checked: a read outside the `line_datasize` bytes
of the line, a copy of negative length, the use of an unset key and a scratch
string without a terminator are errors, not values.

Pointers into the line are offsets in `ℤ`, since `p--` may step in front of it.
-/

namespace LibSimple.Http

open CLang Runs

inductive HttpParserState
  | unknown
  | startline
  | headers
  | body
  | complete
  | cr
  | crlf
  | lsw
  deriving DecidableEq, Repr

/-- Private data of a message under construction.  `linedata` holds the
`line_datasize` bytes of the current line; the allocated buffer of
`lineBufsize` bytes may be longer. -/
structure ParserData where
  linedata : List UInt8
  lineBufsize : ℕ
  state : HttpParserState
  lastState : HttpParserState
  deriving DecidableEq

def ParserData.lineDatasize (pd : ParserData) : ℕ := pd.linedata.length

/-- A message together with its `pri_data`. -/
structure Parser where
  msg : HttpMessage
  pd : ParserData
  deriving DecidableEq

/-- The operations without a defined result that the parser can run into. -/
inductive Fault
  /-- signed overflow when the line buffer grows -/
  | lineBufsizeOverflow
  /-- `linedata[line_datasize]` lies outside the line buffer -/
  | lineWriteOutOfBounds
  /-- a read outside the `line_datasize` bytes of the line -/
  | lineReadOutOfBounds
  /-- `memcpy` with a negative length -/
  | negativeCopy
  /-- `httpc_Message_setValue` on a key that was never written -/
  | unsetKey
  /-- `strdup` of a scratch string without a terminator -/
  | unterminatedScratch
  /-- `atoi` of a null pointer -/
  | nullContentLength
  /-- the loop of `httpc_parser_parse` goes round without consuming a byte -/
  | noProgress
  deriving DecidableEq, Repr

/-- The undefined operations that parsing a line can run into. -/
def Fault.OfLine : Fault → Prop
  | .nullContentLength => False
  | .noProgress => False
  | _ => True

def isblank (c : UInt8) : Bool := c == 32 || c == 9

def isspace (c : UInt8) : Bool := isblank c || c == cr || c == lf

/-! ## The start line -/

/-- One component of the start line: `memset(tmp, 0, line_datasize)`, the
`token` written to `tmp[0..]`, and `strdup(tmp)`.  Of the `n + 1` bytes of `tmp`
the last one is never cleared. -/
def scratchString (n : ℕ) (token : List UInt8) : Except Fault CStr :=
  match strdup (token.map some ++ List.replicate (n - token.length) (some 0) ++ [none]) with
  | some s => .ok s
  | none => .error .unterminatedScratch

/-- A token shorter than the line leaves a cleared byte behind it. -/
theorem scratchString_of_lt {n : ℕ} {token : List UInt8} (h : token.length < n) :
    scratchString n token = .ok (CStr.ofBuffer token) := by
  obtain ⟨k, hk⟩ : ∃ k, n - token.length = k + 1 := ⟨n - token.length - 1, by omega⟩
  rw [scratchString, hk, List.replicate_succ, List.append_assoc, List.cons_append,
    strdup_terminated]

/-- `parseStartLine` -/
def parseStartLine (s : Parser) : Except Fault Parser := do
  let line := s.pd.linedata
  let n := s.pd.lineDatasize
  let p1 ← scratchString n (line.takeWhile (!isspace ·))
  let rest := (line.dropWhile (!isspace ·)).dropWhile isspace
  let p2 ← scratchString n (rest.takeWhile (!isspace ·))
  let rest := (rest.dropWhile (!isspace ·)).dropWhile isspace
  let p3 ← scratchString n (rest.takeWhile fun c => c != cr && c != lf)
  return { s with msg := { s.msg with startLine := ⟨some p1, some p2, some p3⟩ } }

/-- The three texts of a start line, as `parseStartLine` cuts them. -/
def startLineTexts (line : List UInt8) : StartLine :=
  let rest := (line.dropWhile (!isspace ·)).dropWhile isspace
  let rest' := (rest.dropWhile (!isspace ·)).dropWhile isspace
  ⟨some (CStr.ofBuffer (line.takeWhile (!isspace ·))),
    some (CStr.ofBuffer (rest.takeWhile (!isspace ·))),
    some (CStr.ofBuffer (rest'.takeWhile fun c => c != cr && c != lf))⟩

theorem length_takeWhile_lt {p : UInt8 → Bool} {text : List UInt8} {n : ℕ}
    (hlen : text.length ≤ n) (hn : 0 < n) (hend : ∀ h : text ≠ [], p (text.getLast h) = false) :
    (text.takeWhile p).length < n := by
  by_cases hnil : text = []
  · subst hnil
    simpa using hn
  · have hle : (text.takeWhile p).length ≤ text.length :=
      (List.takeWhile_prefix p).length_le
    refine lt_of_lt_of_le (lt_of_le_of_ne hle ?_) hlen
    intro heq
    have hall : text.takeWhile p = text :=
      (List.takeWhile_prefix p).eq_of_length heq
    have hlast := List.takeWhile_eq_self_iff.mp hall _ (List.getLast_mem hnil)
    rw [hend hnil] at hlast
    exact Bool.false_ne_true hlast

/-- On a line that ends with LF no scratch string fills its buffer, so the
start line is parsed without error. -/
theorem parseStartLine_eq {s : Parser} (h : s.pd.linedata.getLast? = some lf) :
    parseStartLine s =
      .ok { s with msg := { s.msg with startLine := startLineTexts s.pd.linedata } } := by
  have hne : s.pd.linedata ≠ [] := by
    intro hnil
    simp [hnil] at h
  have hpos : 0 < s.pd.linedata.length := List.length_pos_iff.mpr hne
  have hlast : s.pd.linedata.getLast hne = lf := by
    rw [List.getLast?_eq_some_getLast hne] at h
    exact Option.some.inj h
  have htoken : ∀ (p : UInt8 → Bool) (rest : List UInt8), p lf = false →
      rest <:+ s.pd.linedata → (rest.takeWhile p).length < s.pd.lineDatasize := by
    intro p rest hp hsuf
    refine length_takeWhile_lt hsuf.length_le hpos ?_
    intro hrest
    rw [hsuf.getLast hrest, hlast, hp]
  have hskip : ∀ rest : List UInt8, rest <:+ s.pd.linedata →
      (rest.dropWhile (!isspace ·)).dropWhile isspace <:+ s.pd.linedata :=
    fun rest hrest => (List.dropWhile_suffix _).trans ((List.dropWhile_suffix _).trans hrest)
  have h2 := hskip _ (List.suffix_refl s.pd.linedata)
  have h3 := hskip _ h2
  rw [parseStartLine, startLineTexts]
  simp only [scratchString_of_lt (htoken (!isspace ·) _ (by decide) (List.suffix_refl _)),
    scratchString_of_lt (htoken (!isspace ·) _ (by decide) h2),
    scratchString_of_lt (htoken (fun c => c != cr && c != lf) _ (by decide) h3),
    ok_bind, pure_eq_ok]

/-! ## A header line -/

/-- The byte `':'`. -/
abbrev colon : UInt8 := 58

/-- The byte at offset `p` of the line. -/
def lineByte (linedata : List UInt8) (p : ℤ) : Except Fault UInt8 :=
  if 0 ≤ p then
    match linedata[p.toNat]? with
    | some c => .ok c
    | none => .error .lineReadOutOfBounds
  else .error .lineReadOutOfBounds

/-- `memcpy(dst, line + q, n)`: the copied bytes. -/
def copyLine (line : List UInt8) (q n : ℤ) : Except Fault (List UInt8) :=
  if n < 0 then .error .negativeCopy
  else if n = 0 then .ok []
  else if 0 ≤ q ∧ q + n ≤ line.length then .ok ((line.drop q.toNat).take n.toNat)
  else .error .lineReadOutOfBounds

/-- `while (p < tail && test(*p)) p++` with `n = tail - p`. -/
def scanForward (test : UInt8 → Bool) (line : List UInt8) : ℕ → ℤ → Except Fault ℤ
  | 0, p => .ok p
  | n + 1, p => do
      if test (← lineByte line p) then scanForward test line n (p + 1) else return p

/-- `while (p > q && isspace(*p)) p--` with `n = p - q`. -/
def trimBack (line : List UInt8) : ℕ → ℤ → Except Fault ℤ
  | 0, p => .ok p
  | n + 1, p => do
      if isspace (← lineByte line p) then trimBack line n (p - 1) else return p

/-- `while (*q && isspace(*q)) q++` with `n = tail - q`.  The loop does not
compare `q` with `tail`: at `n = 0` it reads behind the line. -/
def skipToValue (line : List UInt8) : ℕ → ℤ → Except Fault ℤ
  | 0, _ => .error .lineReadOutOfBounds
  | n + 1, q => do
      let c ← lineByte line q
      if c != 0 && isspace c then skipToValue line n (q + 1) else return q

/-- The first half of `parseHeaderLine`: the bytes copied to `key`, `none` when
nothing is copied, and the offset `x` behind the colon. -/
def scanKey (line : List UInt8) : Except Fault (Option (List UInt8) × ℤ) := do
  let tail : ℤ := line.length
  let q ← scanForward isspace line tail.toNat 0
  let p ← scanForward (· != colon) line (tail - q).toNat q
  let x := p + 1
  let p ← trimBack line (p - 1 - q).toNat (p - 1)
  let key ← if q = p then pure none else some <$> copyLine line q (p - q + 1)
  return (key, x)

/-- The second half of `parseHeaderLine`: the bytes copied to `value`. -/
def scanValue (line : List UInt8) (x : ℤ) : Except Fault (List UInt8) := do
  let tail : ℤ := line.length
  let p ← trimBack line (tail - 1 - x).toNat (tail - 1)
  let q ← skipToValue line (tail - x).toNat x
  copyLine line q (p - q + 1)

/-- `parseHeaderLine` -/
def parseHeaderLine (s : Parser) : Except Fault Parser := do
  let (key, x) ← scanKey s.pd.linedata
  let value ← scanValue s.pd.linedata x
  match key with
  | none => throw .unsetKey
  | some key =>
      return { s with
        msg := httpcMessageSetValue s.msg (CStr.ofBuffer key) (CStr.ofBuffer value) }

/-- A text without the white space at both ends. -/
def trim (text : List UInt8) : List UInt8 := (text.dropWhile isspace).rdropWhile isspace

/-- What stands before the first colon, trimmed. -/
def headerName (line : List UInt8) : List UInt8 := trim (line.takeWhile (· != colon))

/-- What stands behind the first colon, trimmed. -/
def headerValue (line : List UInt8) : List UInt8 :=
  trim (line.dropWhile (· != colon)).tail

/-- The lines that `parseHeaderLine` can handle: there is a colon, the name in
front of it does not consist of a single character, and something other than
white space follows it. -/
def HeaderLineOk (line : List UInt8) : Prop :=
  colon ∈ line ∧ (headerName line).length ≠ 1 ∧ headerValue line ≠ []

instance (line : List UInt8) : Decidable (HeaderLineOk line) :=
  inferInstanceAs (Decidable (_ ∧ _ ∧ _))

/-! ### The loops -/

theorem lineByte_natCast {linedata : List UInt8} {i : ℕ} (h : i < linedata.length) :
    lineByte linedata i = .ok linedata[i] := by
  simp [lineByte, h]

theorem scanForward_eq (test : UInt8 → Bool) (linedata : List UInt8) {n i : ℕ}
    (h : i + n = linedata.length) :
    scanForward test linedata n i =
      .ok ((i + ((linedata.drop i).takeWhile test).length : ℕ) : ℤ) := by
  induction n generalizing i with
  | zero => simp [scanForward, ← h]
  | succ n ih =>
      have hi : i < linedata.length := by omega
      rw [scanForward, lineByte_natCast hi, List.drop_eq_getElem_cons hi]
      have hnext := ih (i := i + 1) (by omega)
      by_cases htest : test linedata[i]
      · simp only [ok_bind, htest, if_true, List.takeWhile_cons_of_pos, List.length_cons]
        rw [← Nat.cast_succ, hnext]
        congr 2
        omega
      · simp [htest]

theorem trimBack_eq (linedata : List UInt8) {n i : ℕ} (h : i + n < linedata.length) :
    trimBack linedata n ((i + n : ℕ) : ℤ) =
      .ok ((i + (((linedata.drop (i + 1)).take n).rdropWhile isspace).length : ℕ) : ℤ) := by
  induction n with
  | zero => simp [trimBack]
  | succ n ih =>
      have hlast : (linedata.drop (i + 1)).take (n + 1) =
          (linedata.drop (i + 1)).take n ++ [linedata[i + (n + 1)]] := by
        rw [List.take_add_one, List.getElem?_drop, List.getElem?_eq_getElem (by omega)]
        simp [Nat.add_comm, Nat.add_left_comm]
      rw [trimBack, lineByte_natCast h, hlast, List.rdropWhile_concat]
      by_cases hspace : isspace linedata[i + (n + 1)]
      · simp only [ok_bind, hspace, if_true]
        have hpred : ((i + (n + 1) : ℕ) : ℤ) - 1 = ((i + n : ℕ) : ℤ) := by omega
        rw [hpred, ih (by omega)]
      · have hlen : ((linedata.drop (i + 1)).take n).length = n := by
          rw [List.length_take, List.length_drop]
          omega
        simp [hspace, hlen]

/-- The value loop stops at the first byte that is no white space, and leaves
the line when there is none. -/
theorem skipToValue_eq (linedata : List UInt8) {n i : ℕ} (h : i + n = linedata.length) :
    skipToValue linedata n i =
      if (linedata.drop i).dropWhile isspace = [] then .error .lineReadOutOfBounds
      else .ok ((i + ((linedata.drop i).takeWhile isspace).length : ℕ) : ℤ) := by
  induction n generalizing i with
  | zero =>
      have hnil : linedata.drop i = [] := List.drop_eq_nil_of_le (by omega)
      simp [skipToValue, hnil]
  | succ n ih =>
      have hi : i < linedata.length := by omega
      have hnext := ih (i := i + 1) (by omega)
      rw [skipToValue, lineByte_natCast hi, ok_bind, List.drop_eq_getElem_cons hi]
      have htest : (linedata[i] != 0 && isspace linedata[i]) = isspace linedata[i] := by
        by_cases hzero : linedata[i] = 0
        · rw [hzero]
          decide
        · simp [hzero]
      rw [htest]
      by_cases hspace : isspace linedata[i] = true
      · rw [if_pos hspace, ← Nat.cast_succ, hnext, List.dropWhile_cons_of_pos hspace,
          List.takeWhile_cons_of_pos hspace, List.length_cons, Nat.add_right_comm i 1,
          Nat.add_assoc]
      · rw [if_neg hspace, List.dropWhile_cons_of_neg hspace, if_neg (List.cons_ne_nil _ _),
          List.takeWhile_cons_of_neg hspace]
        rfl

/-! ### The kinds of errors -/

theorem parseStartLine_failsIn (s : Parser) : FailsIn Fault.OfLine (parseStartLine s) := by
  have hscratch : ∀ n token, FailsIn Fault.OfLine (scratchString n token) := by
    intro n token
    unfold scratchString
    split
    · exact .ok _
    · exact .error trivial
  apply FailsIn.bind (hscratch _ _)
  intro p1
  apply FailsIn.bind (hscratch _ _)
  intro p2
  apply FailsIn.bind (hscratch _ _)
  intro p3
  exact .ok _

theorem lineByte_failsIn (linedata : List UInt8) (p : ℤ) :
    FailsIn Fault.OfLine (lineByte linedata p) := by
  unfold lineByte
  split_ifs
  · split
    · exact .ok _
    · exact .error trivial
  · exact .error trivial

theorem copyLine_failsIn (linedata : List UInt8) (q n : ℤ) :
    FailsIn Fault.OfLine (copyLine linedata q n) := by
  unfold copyLine
  split_ifs
  · exact .error trivial
  · exact .ok _
  · exact .ok _
  · exact .error trivial

theorem scanForward_failsIn (test : UInt8 → Bool) (linedata : List UInt8) (n : ℕ) (p : ℤ) :
    FailsIn Fault.OfLine (scanForward test linedata n p) := by
  induction n generalizing p with
  | zero => exact .ok _
  | succ n ih =>
      apply FailsIn.bind (lineByte_failsIn linedata p)
      intro c
      split_ifs
      · exact ih (p + 1)
      · exact .ok _

theorem trimBack_failsIn (linedata : List UInt8) (n : ℕ) (p : ℤ) :
    FailsIn Fault.OfLine (trimBack linedata n p) := by
  induction n generalizing p with
  | zero => exact .ok _
  | succ n ih =>
      apply FailsIn.bind (lineByte_failsIn linedata p)
      intro c
      split_ifs
      · exact ih (p - 1)
      · exact .ok _

theorem skipToValue_failsIn (linedata : List UInt8) (n : ℕ) (q : ℤ) :
    FailsIn Fault.OfLine (skipToValue linedata n q) := by
  induction n generalizing q with
  | zero => exact .error trivial
  | succ n ih =>
      apply FailsIn.bind (lineByte_failsIn linedata q)
      intro c
      split_ifs
      · exact ih (q + 1)
      · exact .ok _

theorem parseHeaderLine_failsIn (s : Parser) : FailsIn Fault.OfLine (parseHeaderLine s) := by
  have hkey : FailsIn Fault.OfLine (scanKey s.pd.linedata) := by
    apply FailsIn.bind (scanForward_failsIn _ _ _ _)
    intro q
    apply FailsIn.bind (scanForward_failsIn _ _ _ _)
    intro p
    apply FailsIn.bind (trimBack_failsIn _ _ _)
    intro p
    dsimp only
    split_ifs
    · exact .ok _
    · exact ((copyLine_failsIn _ _ _).map _).bind fun key => .ok _
  have hvalue : ∀ x, FailsIn Fault.OfLine (scanValue s.pd.linedata x) := by
    intro x
    apply FailsIn.bind (trimBack_failsIn _ _ _)
    intro p
    apply FailsIn.bind (skipToValue_failsIn _ _ _)
    intro q
    exact copyLine_failsIn _ _ _
  apply FailsIn.bind hkey
  rintro ⟨key, x⟩
  apply FailsIn.bind (hvalue x)
  intro value
  cases key with
  | none => exact .error trivial
  | some key => exact .ok _

/-! ### Lines with and without an error -/

theorem takeWhile_ne_append {A R : List UInt8} (hA : colon ∉ A) :
    (A ++ colon :: R).takeWhile (· != colon) = A := by
  rw [List.takeWhile_append_of_pos]
  · simp
  · intro c hc
    rw [bne_iff_ne]
    rintro rfl
    exact hA hc

theorem dropWhile_ne_append {A R : List UInt8} (hA : colon ∉ A) :
    (A ++ colon :: R).dropWhile (· != colon) = colon :: R := by
  rw [List.dropWhile_append_of_pos]
  · simp
  · intro c hc
    rw [bne_iff_ne]
    rintro rfl
    exact hA hc

theorem headerName_append {A R : List UInt8} (hA : colon ∉ A) :
    headerName (A ++ colon :: R) = trim A := by
  rw [headerName, takeWhile_ne_append hA]

theorem headerValue_append {A R : List UInt8} (hA : colon ∉ A) :
    headerValue (A ++ colon :: R) = trim R := by
  rw [headerValue, dropWhile_ne_append hA, List.tail_cons]

theorem exists_split_of_mem_colon {line : List UInt8} (h : colon ∈ line) :
    ∃ A R, line = A ++ colon :: R ∧ colon ∉ A := by
  obtain ⟨A, R, hline, hA⟩ := List.eq_append_cons_of_mem h
  exact ⟨A, R, hline, hA⟩

theorem copyLine_eq {pre text post : List UInt8} :
    copyLine (pre ++ text ++ post) pre.length text.length = .ok text := by
  rw [copyLine]
  by_cases htext : text = []
  · simp [htext]
  · have hpos : 0 < text.length := List.length_pos_iff.mpr htext
    rw [if_neg (by omega), if_neg (by omega), if_pos ⟨by omega, by simp⟩]
    simp

/-- The white space in front of a text, and the rest. -/
theorem trim_split (text : List UInt8) :
    ∃ front back, text = front ++ trim text ++ back ∧
      front = text.takeWhile isspace := by
  have hsplit := List.takeWhile_append_dropWhile (p := isspace) (l := text)
  have hback := List.rdropWhile_append_rtakeWhile (p := isspace) (l := text.dropWhile isspace)
  refine ⟨text.takeWhile isspace, (text.dropWhile isspace).rtakeWhile isspace, ?_, rfl⟩
  rw [trim, List.append_assoc, hback, hsplit]

theorem trim_eq_nil_iff {text : List UInt8} :
    trim text = [] ↔ text.dropWhile isspace = [] := by
  constructor
  · intro h
    rw [trim, List.rdropWhile_eq_nil_iff] at h
    cases hdrop : text.dropWhile isspace with
    | nil => rfl
    | cons c rest =>
        have hhead := List.head_dropWhile_not (p := isspace) (l := text) (by simp [hdrop])
        simp only [hdrop, List.head_cons] at hhead
        rw [h c (by simp [hdrop])] at hhead
        cases hhead
  · intro h
    rw [trim, h, List.rdropWhile_nil]

theorem rdropWhile_append (p : UInt8 → Bool) (xs ys : List UInt8) :
    (xs ++ ys).rdropWhile p =
      if ys.rdropWhile p = [] then xs.rdropWhile p else xs ++ ys.rdropWhile p := by
  simp only [List.rdropWhile, List.reverse_append, List.dropWhile_append,
    List.reverse_eq_nil_iff, List.isEmpty_iff]
  split_ifs with h
  · rfl
  · simp

theorem rdropWhile_cons (p : UInt8 → Bool) (c : UInt8) (xs : List UInt8) :
    (c :: xs).rdropWhile p =
      if xs.rdropWhile p = [] ∧ p c = true then [] else c :: xs.rdropWhile p := by
  rw [← List.singleton_append, rdropWhile_append, List.rdropWhile_singleton]
  by_cases hnil : xs.rdropWhile p = []
  · rw [if_pos hnil, hnil]
    simp only [true_and]
  · rw [if_neg hnil, if_neg fun h => hnil h.1]
    rfl

theorem takeWhile_append_stop {p : UInt8 → Bool} {A R : List UInt8} {c : UInt8}
    (hc : p c = false) : (A ++ c :: R).takeWhile p = A.takeWhile p := by
  rw [List.takeWhile_append]
  split_ifs with h
  · rw [List.takeWhile_cons_of_neg (by simp [hc]), List.append_nil]
    exact ((List.takeWhile_prefix p).eq_of_length h).symm
  · rfl

theorem isspace_colon : isspace colon = false := by decide

theorem scanKey_eq {A R : List UInt8} (hA : colon ∉ A) :
    scanKey (A ++ colon :: R) =
      .ok (if (trim A).length = 1 then none else some (trim A), (A.length : ℤ) + 1) := by
  obtain ⟨F, back, hsplit, hF⟩ := trim_split A
  set N := A.dropWhile isspace with hN
  have hFN : F ++ N = A := by
    rw [hF, hN, List.takeWhile_append_dropWhile]
  have hlen : F.length + N.length = A.length := by
    rw [← hFN, List.length_append]
  have hq : scanForward isspace (A ++ colon :: R) (A ++ colon :: R).length 0 =
      .ok (F.length : ℤ) := by
    have h := scanForward_eq isspace (A ++ colon :: R) (i := 0) (Nat.zero_add _)
    rw [List.drop_zero, takeWhile_append_stop isspace_colon, ← hF, Nat.zero_add] at h
    exact h
  have hrest : (A ++ colon :: R).drop F.length = N ++ colon :: R := by
    rw [← hFN, List.append_assoc, List.drop_left]
  have hp : scanForward (· != colon) (A ++ colon :: R)
      (((A ++ colon :: R).length : ℤ) - F.length).toNat F.length = .ok (A.length : ℤ) := by
    have hN' : colon ∉ N := fun h => hA (hFN ▸ List.mem_append_right F h)
    have hn : F.length + (((A ++ colon :: R).length : ℤ) - F.length).toNat =
        (A ++ colon :: R).length := by
      rw [List.length_append]
      omega
    rw [scanForward_eq _ _ hn, hrest, takeWhile_ne_append hN', hlen]
  rw [scanKey]
  simp only [Int.toNat_natCast, hq, ok_bind, hp]
  cases hcase : N with
  | nil =>
      have htrim : trim A = [] := by
        rw [trim_eq_nil_iff, ← hN, hcase]
      have hlen' : (F.length : ℤ) = A.length := by
        simp [← hlen, hcase]
      have hn : ((A.length : ℤ) - 1 - F.length).toNat = 0 := by omega
      have hne : (F.length : ℤ) ≠ A.length - 1 := by omega
      have hzero : (A.length : ℤ) - 1 - F.length + 1 = 0 := by omega
      simp [hn, trimBack, hne, hzero, copyLine, htrim]
  | cons c N1 =>
      have hc : isspace c = false := by
        have h := List.head_dropWhile_not isspace (l := A) (by rw [← hN, hcase]; simp)
        simpa only [← hN, hcase, List.head_cons] using h
      have htrim : trim A = c :: N1.rdropWhile isspace := by
        rw [trim, ← hN, hcase, rdropWhile_cons, if_neg (by simp [hc])]
      rw [hcase, List.length_cons] at hlen
      have hback : trimBack (A ++ colon :: R) N1.length ((F.length + N1.length : ℕ) : ℤ) =
          .ok ((F.length + (N1.rdropWhile isspace).length : ℕ) : ℤ) := by
        rw [trimBack_eq _ (by rw [List.length_append]; omega), ← List.drop_drop, hrest, hcase]
        simp
      have hn : ((A.length : ℤ) - 1 - F.length).toNat = N1.length := by omega
      have hstart : (A.length : ℤ) - 1 = ((F.length + N1.length : ℕ) : ℤ) := by omega
      rw [hn, hstart, hback]
      have hcopy : copyLine (A ++ colon :: R) F.length (trim A).length = .ok (trim A) := by
        have hA' : A ++ colon :: R = F ++ trim A ++ (back ++ colon :: R) := by
          conv_lhs => rw [hsplit]
          simp
        rw [hA', copyLine_eq]
      have hsize : (trim A).length = (N1.rdropWhile isspace).length + 1 := by
        rw [htrim, List.length_cons]
      simp only [ok_bind]
      by_cases hone : (trim A).length = 1
      · have hq' : (F.length : ℤ) = ((F.length + (N1.rdropWhile isspace).length : ℕ) : ℤ) := by
          omega
        simp [hone, ← hq']
      · have hq' : (F.length : ℤ) ≠ ((F.length + (N1.rdropWhile isspace).length : ℕ) : ℤ) := by
          omega
        have hlength : ((F.length + (N1.rdropWhile isspace).length : ℕ) : ℤ) - F.length + 1 =
            (trim A).length := by
          omega
        rw [if_neg hq', hlength, hcopy, if_neg hone]
        rfl

theorem scanValue_eq {A R : List UInt8} :
    scanValue (A ++ colon :: R) ((A.length : ℤ) + 1) =
      if trim R = [] then .error .lineReadOutOfBounds else .ok (trim R) := by
  have hrest : (A ++ colon :: R).drop (A.length + 1) = R := by
    rw [← List.drop_drop, List.drop_left]
    rfl
  have htail : (((A ++ colon :: R).length : ℤ) - (A.length + 1)).toNat = R.length := by
    rw [List.length_append, List.length_cons]
    omega
  have hskip : skipToValue (A ++ colon :: R) R.length ((A.length : ℤ) + 1) =
      if trim R = [] then .error .lineReadOutOfBounds
      else .ok ((A.length + 1 + (R.takeWhile isspace).length : ℕ) : ℤ) := by
    have h := skipToValue_eq (A ++ colon :: R) (n := R.length) (i := A.length + 1)
      (by rw [List.length_append, List.length_cons]; omega)
    simpa only [hrest, trim_eq_nil_iff, Nat.cast_add, Nat.cast_one] using h
  rw [scanValue]
  simp only [htail, hskip]
  cases R with
  | nil =>
      simp [trimBack, trim]
  | cons d R1 =>
      have hn : (((A ++ colon :: d :: R1).length : ℤ) - 1 - (A.length + 1)).toNat =
          R1.length := by
        rw [List.length_append, List.length_cons, List.length_cons]
        omega
      have hstart : ((A ++ colon :: d :: R1).length : ℤ) - 1 =
          ((A.length + 1 + R1.length : ℕ) : ℤ) := by
        rw [List.length_append, List.length_cons, List.length_cons]
        omega
      have hback : trimBack (A ++ colon :: d :: R1) R1.length
          ((A.length + 1 + R1.length : ℕ) : ℤ) =
          .ok ((A.length + 1 + (R1.rdropWhile isspace).length : ℕ) : ℤ) := by
        rw [trimBack_eq _ (by simp only [List.length_append, List.length_cons]; omega),
          ← List.drop_drop, hrest]
        simp
      rw [hn, hstart, hback, ok_bind]
      split_ifs with htrim
      · rfl
      · obtain ⟨T, back, hsplit, hT⟩ := trim_split (d :: R1)
        -- the last kept byte is the same whether the front was cut before or not
        have hsize : (R1.rdropWhile isspace).length + 1 =
            T.length + (trim (d :: R1)).length := by
          have hleft : (d :: R1).rdropWhile isspace = T ++ trim (d :: R1) := by
            conv_lhs =>
              rw [← List.takeWhile_append_dropWhile (p := isspace) (l := d :: R1),
                rdropWhile_append]
            exact (if_neg htrim).trans (by rw [hT]; rfl)
          have hright : (d :: R1).rdropWhile isspace = d :: R1.rdropWhile isspace := by
            rw [rdropWhile_cons] at hleft ⊢
            refine if_neg fun hnil => ?_
            rw [if_pos hnil] at hleft
            exact absurd (List.append_eq_nil_iff.mp hleft.symm).2 htrim
          rw [← List.length_append, ← hleft, hright, List.length_cons]
        rw [ok_bind, ← hT]
        have hlength : ((A.length + 1 + (R1.rdropWhile isspace).length : ℕ) : ℤ) -
            ((A.length + 1 + T.length : ℕ) : ℤ) + 1 = (trim (d :: R1)).length := by
          omega
        have hline : A ++ colon :: d :: R1 =
            (A ++ colon :: T) ++ trim (d :: R1) ++ back := by
          conv_lhs => rw [hsplit]
          simp
        have hoff : A.length + 1 + T.length = (A ++ colon :: T).length := by
          rw [List.length_append, List.length_cons]
          omega
        rw [hlength, hoff, hline, copyLine_eq]

/-- Without a colon the value is looked for behind the end of the line. -/
theorem scanKey_of_notMem_colon {line : List UInt8} (h : colon ∉ line)
    {key : Option (List UInt8)} {x : ℤ} (hscan : scanKey line = .ok (key, x)) :
    x = (line.length : ℤ) + 1 := by
  have hall : ∀ i, (line.drop i).takeWhile (· != colon) = line.drop i := by
    intro i
    rw [List.takeWhile_eq_self_iff]
    intro c hc
    rw [bne_iff_ne]
    rintro rfl
    exact h (List.mem_of_mem_drop hc)
  have hle : (line.takeWhile isspace).length ≤ line.length :=
    (List.takeWhile_prefix isspace).length_le
  have hq := scanForward_eq isspace line (i := 0) (Nat.zero_add _)
  rw [List.drop_zero, Nat.zero_add] at hq
  have hp := scanForward_eq (· != colon) line (i := (line.takeWhile isspace).length)
    (n := line.length - (line.takeWhile isspace).length) (by omega)
  rw [hall, List.length_drop, Nat.add_sub_cancel' hle] at hp
  have hn : ((line.length : ℤ) - ((line.takeWhile isspace).length : ℕ)).toNat =
      line.length - (line.takeWhile isspace).length := by
    omega
  rw [scanKey] at hscan
  simp only [Int.toNat_natCast, Nat.cast_zero] at hq hscan
  rw [hq, ok_bind, hn, hp, ok_bind] at hscan
  obtain ⟨p, -, hscan⟩ := bind_eq_ok.mp hscan
  split_ifs at hscan
  · simp only [pure_eq_ok, ok_bind, Except.ok.injEq, Prod.mk.injEq] at hscan
    exact hscan.2.symm
  · obtain ⟨k, -, hk⟩ := bind_eq_ok.mp hscan
    simp only [pure_eq_ok, Except.ok.injEq, Prod.mk.injEq] at hk
    exact hk.2.symm

theorem scanValue_of_behind (line : List UInt8) :
    ∃ f, scanValue line ((line.length : ℤ) + 1) = .error f := by
  have hback : ((line.length : ℤ) - 1 - (line.length + 1)).toNat = 0 := by omega
  have hskip : ((line.length : ℤ) - (line.length + 1)).toNat = 0 := by omega
  exact ⟨.lineReadOutOfBounds, by simp only [scanValue, hback, hskip, trimBack, ok_bind,
    skipToValue, error_bind]⟩

/-- On the lines it can handle `parseHeaderLine` adds the trimmed name and
value, cut at a NUL. -/
theorem parseHeaderLine_eq {s : Parser} (h : HeaderLineOk s.pd.linedata) :
    parseHeaderLine s =
      .ok { s with
        msg := httpcMessageSetValue s.msg (CStr.ofBuffer (headerName s.pd.linedata))
          (CStr.ofBuffer (headerValue s.pd.linedata)) } := by
  obtain ⟨hcolon, hname, hvalue⟩ := h
  obtain ⟨A, R, hline, hA⟩ := exists_split_of_mem_colon hcolon
  rw [hline, headerName_append hA] at hname
  rw [hline, headerValue_append hA] at hvalue
  rw [parseHeaderLine, hline, scanKey_eq hA, ok_bind]
  simp only [scanValue_eq, if_neg hvalue, if_neg hname, ok_bind, headerName_append hA,
    headerValue_append hA, pure_eq_ok]

/-- Every other line makes `parseHeaderLine` run into an undefined operation. -/
theorem parseHeaderLine_fails {s : Parser} (h : ¬ HeaderLineOk s.pd.linedata) :
    ∃ f, parseHeaderLine s = .error f := by
  by_cases hcolon : colon ∈ s.pd.linedata
  · obtain ⟨A, R, hline, hA⟩ := exists_split_of_mem_colon hcolon
    rw [parseHeaderLine, hline, scanKey_eq hA, ok_bind]
    simp only [scanValue_eq]
    by_cases hvalue : trim R = []
    · exact ⟨.lineReadOutOfBounds, by rw [if_pos hvalue, error_bind]⟩
    · have hname : (trim A).length = 1 := by
        by_contra hname
        apply h
        refine ⟨hcolon, ?_, ?_⟩
        · rwa [hline, headerName_append hA]
        · rwa [hline, headerValue_append hA]
      exact ⟨.unsetKey, by rw [if_neg hvalue, ok_bind, if_pos hname, throw_eq_error]⟩
  · apply bind_fails_of_ok
    rintro ⟨key, x⟩ hr
    obtain ⟨f, hf⟩ := scanValue_of_behind s.pd.linedata
    rw [← scanKey_of_notMem_colon hcolon hr] at hf
    exact ⟨f, by simp only [hf, error_bind]⟩

end LibSimple.Http
