import LibSimple.Http.ByteStep
import LibSimple.Http.Encode

/-!
# The parser on the text of a message

What `appendByte` does on the lines that the encoder prints: which texts it
gets through, and the message it has collected behind each line.
-/

namespace LibSimple.Http

open CLang Runs

/-! ## Lines -/

/-- Text without a CR is collected as long as the line buffer can grow. -/
theorem outcome_text {s : Parser} {text : List UInt8} (hinv : Invariant s) (hs : InText s)
    (htext : cr ∉ text) :
    Outcome appendByte s text (s.pd.linedata.length + text.length ≤ maxLine) fun t =>
      Invariant t ∧ t.pd.state = s.pd.state ∧ t.pd.linedata = s.pd.linedata ++ text ∧
        t.msg = s.msg := by
  induction text generalizing s with
  | nil =>
      have hfits : s.pd.linedata.length + ([] : List UInt8).length ≤ maxLine :=
        hinv.buffer.fits.trans hinv.buffer.bounded
      exact (Outcome.nil (s := s) ⟨hinv, rfl, by simp, rfl⟩).congr
        (iff_of_true trivial hfits) fun t ht => ht
  | cons c text ih =>
      rw [List.mem_cons, not_or] at htext
      have hfirst : Outcome appendByte s [c] (s.pd.linedata.length < maxLine) fun t =>
          Invariant t ∧ t = appended c s := by
        refine .single ?_ fun t ht => ?_
        · rw [appendByte_isOk_iff hinv, StepSafe]
          rcases hs with hs | hs <;> simp only [hs] <;> rfl
        · exact ⟨invariant_appendByte c s t hinv ht,
            (byteStep_of_appendByte hinv ht).2.eq_of_inText hs (Ne.symm htext.1)⟩
      have hrest : ∀ t, Invariant t ∧ t = appended c s →
          Outcome appendByte t text (s.pd.linedata.length + 1 + text.length ≤ maxLine) fun u =>
            Invariant u ∧ u.pd.state = s.pd.state ∧
              u.pd.linedata = s.pd.linedata ++ c :: text ∧ u.msg = s.msg := by
        rintro t ⟨ht, rfl⟩
        refine (ih ht hs htext.2).congr (by simp) fun u hu => ?_
        simpa using hu
      refine (hfirst.append hrest).congr ?_ fun u hu => hu
      rw [List.length_cons]
      omega

/-- A line of text, up to and including its CR LF. -/
theorem outcome_line {s : Parser} {text : List UInt8} (hinv : Invariant s) (hs : InText s)
    (htext : cr ∉ text) (hhead : ∃ c line, s.pd.linedata ++ text = c :: line ∧ c ≠ cr) :
    Outcome appendByte s (text ++ [cr, lf])
      (s.pd.linedata.length + text.length + 2 ≤ maxLine) fun t =>
        Invariant t ∧ t.pd.state = .crlf ∧ t.pd.lastState = s.pd.state ∧
          t.pd.linedata = s.pd.linedata ++ text ++ [cr, lf] ∧ t.msg = s.msg := by
  have hcr : ∀ t, (Invariant t ∧ t.pd.state = s.pd.state ∧
      t.pd.linedata = s.pd.linedata ++ text ∧ t.msg = s.msg) →
      Outcome appendByte t [cr] (s.pd.linedata.length + text.length < maxLine) fun u =>
        Invariant u ∧ u.pd.state = .cr ∧ u.pd.lastState = s.pd.state ∧
          u.pd.linedata = s.pd.linedata ++ text ++ [cr] ∧ u.msg = s.msg := by
    rintro t ⟨ht, hstate, hline, hmsg⟩
    have hts : InText t := by
      rw [InText, hstate]
      exact hs
    refine .single ?_ fun u hu => ?_
    · rw [appendByte_isOk_iff ht, StepSafe, ParserData.lineDatasize, hline, List.length_append]
      rcases hts with h | h <;> simp only [h]
    · refine ⟨invariant_appendByte cr t u ht hu, ?_⟩
      rw [(byteStep_of_appendByte ht hu).2.eq_of_inText_cr hts]
      exact ⟨rfl, hstate, by simp [hline], hmsg⟩
  have hlf : ∀ t, (Invariant t ∧ t.pd.state = .cr ∧ t.pd.lastState = s.pd.state ∧
      t.pd.linedata = s.pd.linedata ++ text ++ [cr] ∧ t.msg = s.msg) →
      Outcome appendByte t [lf] (s.pd.linedata.length + text.length + 1 < maxLine) fun u =>
        Invariant u ∧ u.pd.state = .crlf ∧ u.pd.lastState = s.pd.state ∧
          u.pd.linedata = s.pd.linedata ++ text ++ [cr, lf] ∧ u.msg = s.msg := by
    rintro t ⟨ht, hstate, hlast, hline, hmsg⟩
    have htake : (t.pd.linedata ++ [lf]).take 2 ≠ [cr, lf] := by
      obtain ⟨c, line, hcline, hc⟩ := hhead
      rw [hline, hcline]
      intro h
      exact hc (List.cons.inj h).1
    refine .single ?_ fun u hu => ?_
    · rw [appendByte_isOk_iff ht, StepSafe, ParserData.lineDatasize, hline, List.length_append,
        List.length_append, List.length_singleton, hstate]
    · refine ⟨invariant_appendByte lf t u ht hu, ?_⟩
      rw [(byteStep_of_appendByte ht hu).2.eq_of_cr_lf hstate, if_neg htake]
      exact ⟨rfl, hlast, by simp [hline], hmsg⟩
  refine ((outcome_text hinv hs htext).append fun t ht => (hcr t ht).append hlf).congr ?_
    fun u hu => hu
  omega

/-- A finished line is pending, and the message with this line is `msg`. -/
structure LineEnd (msg : HttpMessage) (s : Parser) : Prop where
  inv : Invariant s
  state : s.pd.state = .crlf
  lineOk : LineOk s
  finished : finishedMsg s = msg

/-- The first byte of the next line stores the pending one in the message. -/
theorem outcome_nextLine {msg : HttpMessage} {s : Parser} (hs : LineEnd msg s) {c : UInt8}
    (hblank : isblank c = false) :
    Outcome appendByte s [c] True fun t =>
      Invariant t ∧ t.pd.state = (if c = cr then .cr else .headers) ∧
        t.pd.linedata = [c] ∧ t.msg = msg := by
  refine .single ?_ fun t ht => ?_
  · rw [appendByte_isOk_iff hs.inv, StepSafe]
    simp only [hs.state]
    exact iff_of_true (Or.inr hs.lineOk) trivial
  · refine ⟨invariant_appendByte c s t hs.inv ht, ?_⟩
    rw [(byteStep_of_appendByte hs.inv ht).2.eq_of_crlf hs.state hblank]
    exact ⟨rfl, rfl, hs.finished⟩

/-- A line of a header is pending in the line buffer, its CR LF behind it. -/
structure Pending (msg : HttpMessage) (line : List UInt8) (s : Parser) : Prop where
  inv : Invariant s
  state : s.pd.state = .crlf
  lastState : s.pd.lastState = .headers
  linedata : s.pd.linedata = line ++ [cr, lf]
  msg : s.msg = msg

/-- A header line behind a finished line is pending when it is read. -/
theorem outcome_nextHeader {msg : HttpMessage} {s : Parser} (hs : LineEnd msg s) {c : UInt8}
    {rest : List UInt8} (hblank : isblank c = false) (hc : c ≠ cr) (hcr : cr ∉ rest) :
    Outcome appendByte s (c :: rest ++ [cr, lf]) (rest.length + 3 ≤ maxLine)
      (Pending msg (c :: rest)) := by
  have hrest : ∀ t, (Invariant t ∧ t.pd.state = (if c = cr then .cr else .headers) ∧
      t.pd.linedata = [c] ∧ t.msg = msg) →
      Outcome appendByte t (rest ++ [cr, lf]) (rest.length + 3 ≤ maxLine)
        (Pending msg (c :: rest)) := by
    rintro t ⟨ht, hstate, hdata, hmsg⟩
    rw [if_neg hc] at hstate
    refine (outcome_line ht (Or.inr hstate) hcr ⟨c, _, by rw [hdata]; rfl, hc⟩).congr ?_ ?_
    · rw [hdata, List.length_singleton]
      omega
    · rintro u ⟨hu, hustate, hulast, huline, humsg⟩
      refine ⟨hu, hustate, hulast.trans hstate, ?_, humsg.trans hmsg⟩
      rw [huline, hdata]
      rfl
  have hwhole := (outcome_nextLine hs hblank).append hrest
  exact hwhole.congr (and_iff_right trivial) fun u hu => hu

/-! ## White space around a text -/

/-- A text that neither begins nor ends with white space. -/
structure Trimmed (text : List UInt8) : Prop where
  nonempty : text ≠ []
  front : ∀ c ∈ text.head?, isspace c = false
  back : ∀ c ∈ text.getLast?, isspace c = false

theorem dropWhile_trimmed {text : List UInt8} (h : Trimmed text) {front : List UInt8}
    (hfront : ∀ c ∈ front, isspace c = true) (rest : List UInt8) :
    (front ++ (text ++ rest)).dropWhile isspace = text ++ rest := by
  rw [List.dropWhile_append_of_pos hfront]
  cases htext : text with
  | nil => exact absurd htext h.nonempty
  | cons c text =>
      have hc := h.front c (by simp [htext])
      rw [List.cons_append, List.dropWhile_cons_of_neg (by simp [hc])]

/-- Trimming removes white space on both sides and nothing else. -/
theorem trim_append {text : List UInt8} (h : Trimmed text) (front back : List UInt8)
    (hfront : ∀ c ∈ front, isspace c = true) (hback : ∀ c ∈ back, isspace c = true) :
    trim (front ++ text ++ back) = text := by
  rw [List.append_assoc, trim, dropWhile_trimmed h hfront, List.rdropWhile,
    List.reverse_append, List.dropWhile_append_of_pos (fun c hc => hback c (by simpa using hc))]
  cases hrev : text.reverse with
  | nil => exact absurd (List.reverse_eq_nil_iff.mp hrev) h.nonempty
  | cons c rest =>
      have hlast : c ∈ text.getLast? := by
        rw [← List.head?_reverse, hrev]
        rfl
      rw [List.dropWhile_cons_of_neg (by simp [h.back c hlast]), ← hrev, List.reverse_reverse]

/-! ## Header lines -/

/-- A header that the text format can carry. -/
structure HeaderOk (h : HttpHeader) : Prop where
  key : Trimmed h.key.val
  value : Trimmed h.value.val
  keyLength : 2 ≤ h.key.val.length
  keyText : ∀ c ∈ h.key.val, c ≠ colon ∧ c ≠ cr ∧ c ≠ lf
  valueText : ∀ c ∈ h.value.val, c ≠ cr ∧ c ≠ lf

/-- The pieces of a header line that `parseHeaderLine` cuts out. -/
theorem header_of_headerText {h : HttpHeader} (hok : HeaderOk h) :
    headerName (headerText h) = h.key.val ∧ headerValue (headerText h) = h.value.val ∧
      HeaderLineOk (headerText h) := by
  have hcolon : colon ∉ h.key.val := fun hmem => (hok.keyText colon hmem).1 rfl
  have htext : headerText h = h.key.val ++ colon :: (32 :: h.value.val ++ [cr, lf]) := by
    simp [headerText]
  have hname : headerName (headerText h) = h.key.val := by
    have := trim_append hok.key [] [] (by simp) (by simp)
    rw [htext, headerName_append hcolon]
    simpa using this
  have hvalue : headerValue (headerText h) = h.value.val := by
    rw [htext, headerValue_append hcolon]
    exact trim_append hok.value [32] [cr, lf] (by decide +kernel) (by decide +kernel)
  refine ⟨hname, hvalue, ?_, ?_, ?_⟩
  · rw [htext]
    simp
  · rw [hname]
    have := hok.keyLength
    omega
  · rw [hvalue]
    exact hok.value.nonempty

/-- A header line adds its header to the message. -/
theorem outcome_headerText {msg : HttpMessage} {s : Parser} (hs : LineEnd msg s)
    {h : HttpHeader} (hok : HeaderOk h) :
    Outcome appendByte s (headerText h) ((headerText h).length ≤ maxLine)
      (LineEnd (httpcMessageSetValue msg h.key h.value)) := by
  obtain ⟨hname, hvalue, hline⟩ := header_of_headerText hok
  obtain ⟨c, key, hkey⟩ : ∃ c key, h.key.val = c :: key := by
    cases hk : h.key.val with
    | nil => exact absurd hk hok.key.nonempty
    | cons c key => exact ⟨c, key, rfl⟩
  have hspace : isspace c = false := hok.key.front c (by simp [hkey])
  have hc : c ≠ cr := (hok.keyText c (by simp [hkey])).2.1
  have htext : headerText h = c :: (key ++ colon :: 32 :: h.value.val) ++ [cr, lf] := by
    simp [headerText, hkey]
  have hcr : cr ∉ key ++ colon :: 32 :: h.value.val := by
    simp only [List.mem_append, List.mem_cons, not_or]
    refine ⟨fun hmem => ?_, by decide, by decide, fun hmem => (hok.valueText cr hmem).1 rfl⟩
    exact (hok.keyText cr (by simp [hkey, hmem])).2.1 rfl
  have hblank : isblank c = false := by
    simp only [isspace, Bool.or_eq_false_iff] at hspace
    exact hspace.1.1
  have hwhole := outcome_nextHeader hs hblank hc hcr
  rw [← htext] at hwhole
  refine hwhole.congr ?_ fun u hu => ?_
  · simp only [htext, List.length_append, List.length_cons, List.length_nil]
  · have hudata : u.pd.linedata = headerText h := hu.linedata.trans htext.symm
    have hheaders : ¬ u.pd.lastState = .startline := by
      rw [hu.lastState]
      decide
    refine ⟨hu.inv, hu.state, Or.inr (hudata ▸ hline), ?_⟩
    rw [finishedMsg, if_neg hheaders, hudata, hname, hvalue, CStr.ofBuffer_val,
      CStr.ofBuffer_val, hu.msg]

theorem outcome_headers {msg : HttpMessage} {s : Parser} (hs : LineEnd msg s)
    {headers : List HttpHeader} (hok : ∀ h ∈ headers, HeaderOk h) :
    Outcome appendByte s (headers.flatMap headerText)
      (∀ h ∈ headers, (headerText h).length ≤ maxLine)
      (LineEnd (headers.foldl (fun m h => httpcMessageSetValue m h.key h.value) msg)) := by
  induction headers generalizing msg s with
  | nil => exact (Outcome.nil hs).congr (by simp) fun t ht => ht
  | cons h headers ih =>
      rw [List.forall_mem_cons] at hok
      rw [List.flatMap_cons, List.forall_mem_cons]
      exact (outcome_headerText hs hok.1).append fun t ht => ih ht hok.2

/-! ## The start line -/

/-- The texts of a start line that the text format can carry. -/
structure StartLineOk (p1 p2 p3 : CStr) : Prop where
  p1 : p1.val ≠ [] ∧ ∀ c ∈ p1.val, isspace c = false
  p2 : p2.val ≠ [] ∧ ∀ c ∈ p2.val, isspace c = false
  p3 : (∀ c ∈ p3.val, c ≠ cr ∧ c ≠ lf) ∧ ∀ c ∈ p3.val.head?, isblank c = false

/-- A word in front of white space, and what `isspace` skips behind it. -/
theorem word_split {word : List UInt8} (hword : ∀ c ∈ word, isspace c = false)
    (c : UInt8) (hc : isspace c = true) (rest : List UInt8) :
    (word ++ c :: rest).takeWhile (!isspace ·) = word ∧
      ((word ++ c :: rest).dropWhile (!isspace ·)).dropWhile isspace =
        rest.dropWhile isspace := by
  have hpos : ∀ d ∈ word, (!isspace d) = true := fun d hd => by rw [hword d hd]; rfl
  refine ⟨?_, ?_⟩
  · rw [List.takeWhile_append_of_pos hpos, List.takeWhile_cons_of_neg (by simp [hc]),
      List.append_nil]
  · rw [List.dropWhile_append_of_pos hpos, List.dropWhile_cons_of_neg (by simp [hc]),
      List.dropWhile_cons_of_pos hc]

theorem dropWhile_word {word : List UInt8} (hne : word ≠ [])
    (hword : ∀ c ∈ word, isspace c = false) (rest : List UInt8) :
    (word ++ rest).dropWhile isspace = word ++ rest := by
  cases word with
  | nil => exact absurd rfl hne
  | cons c word =>
      rw [List.cons_append, List.dropWhile_cons_of_neg (by simp [hword c List.mem_cons_self])]

theorem startLineTexts_startLineText {p1 p2 p3 : CStr} (hok : StartLineOk p1 p2 p3) :
    startLineTexts (startLineText p1 p2 p3) = ⟨some p1, some p2, some p3⟩ := by
  have hspace : isspace 32 = true := by decide
  obtain ⟨htake1, hdrop1⟩ := word_split hok.p1.2 32 hspace
    (p2.val ++ 32 :: (p3.val ++ [cr, lf]))
  obtain ⟨htake2, hdrop2⟩ := word_split hok.p2.2 32 hspace (p3.val ++ [cr, lf])
  rw [dropWhile_word hok.p2.1 hok.p2.2] at hdrop1
  have hthird : ((p3.val ++ [cr, lf]).dropWhile isspace).takeWhile
      (fun c => c != cr && c != lf) = p3.val := by
    cases hp3 : p3.val with
    | nil => decide
    | cons c rest =>
        obtain ⟨htext, hhead⟩ := hok.p3
        rw [hp3] at htext hhead
        have hc : isspace c = false := by
          have := htext c List.mem_cons_self
          simp [isspace, hhead c rfl, this]
        rw [List.cons_append, List.dropWhile_cons_of_neg (by simp [hc]), ← List.cons_append,
          List.takeWhile_append_of_pos (fun d hd => by simp [htext d hd])]
        simp
  have htext : startLineText p1 p2 p3 =
      p1.val ++ 32 :: (p2.val ++ 32 :: (p3.val ++ [cr, lf])) := by
    simp [startLineText]
  rw [startLineTexts, htext]
  simp only [htake1, hdrop1, htake2, hdrop2, hthird, CStr.ofBuffer_val]

/-- The start line is pending behind its CR LF. -/
theorem outcome_startLineText {p1 p2 p3 : CStr} (hok : StartLineOk p1 p2 p3) :
    Outcome appendByte parserCreate (startLineText p1 p2 p3)
      ((startLineText p1 p2 p3).length ≤ maxLine)
      (LineEnd { httpcMessageCreate with startLine := ⟨some p1, some p2, some p3⟩ }) := by
  have hnotSpace : ∀ p : CStr, (∀ c ∈ p.val, isspace c = false) → cr ∉ p.val :=
    fun p hp hmem => absurd (hp cr hmem) (by decide)
  have hcr : cr ∉ p1.val ++ 32 :: p2.val ++ 32 :: p3.val := by
    simp only [List.mem_append, List.mem_cons, not_or]
    exact ⟨⟨hnotSpace p1 hok.p1.2, by decide, hnotSpace p2 hok.p2.2⟩, by decide,
      fun hmem => (hok.p3.1 cr hmem).1 rfl⟩
  obtain ⟨c, rest, hp1⟩ : ∃ c rest, p1.val = c :: rest := by
    cases hp : p1.val with
    | nil => exact absurd hp hok.p1.1
    | cons c rest => exact ⟨c, rest, rfl⟩
  have hc : c ≠ cr := by
    rintro rfl
    exact hnotSpace p1 hok.p1.2 (by simp [hp1])
  refine (outcome_line invariant_parserCreate (Or.inl rfl) hcr
    ⟨c, rest ++ 32 :: p2.val ++ 32 :: p3.val, by simp [parserCreate, hp1], hc⟩).congr ?_ ?_
  · simp only [startLineText, parserCreate, List.length_append, List.length_cons,
      List.length_nil]
    omega
  · rintro t ⟨ht, hstate, hlast, hline, hmsg⟩
    have hdata : t.pd.linedata = startLineText p1 p2 p3 := by
      rw [hline]
      rfl
    have hstart : t.pd.lastState = .startline := hlast
    refine ⟨ht, hstate, Or.inl hstart, ?_⟩
    rw [finishedMsg, if_pos hstart, hdata, startLineTexts_startLineText hok, hmsg]
    rfl

end LibSimple.Http
