import LibSimple.Http.HeaderBreak
import LibSimple.Support.Words

/-!
# Folded headers

A header whose value goes on in further lines, each announced by blanks.  The
parser takes the CR LF out of the line buffer and skips the blanks, so the texts
of the lines are put together as they stand.
-/

namespace LibSimple.Http

open CLang Runs Words

/-! ## The text of a folded header -/

/-- A part of a value that stands in one line and begins with a word. -/
structure ValueText where
  val : List UInt8
  start : StartsWord isblank val
  plain : ∀ c ∈ val, c ≠ cr ∧ c ≠ lf ∧ c ≠ 0

/-- A continuation line. -/
structure Fold where
  blanks : List UInt8
  value : ValueText
  nonempty : blanks ≠ []
  blank : ∀ c ∈ blanks, isblank c = true

/-- `key ':' v1 CR LF b2 v2 CR LF ...`, with or without blanks in front of `v1`. -/
structure FoldedHeader where
  key : List UInt8
  lead : List UInt8
  value : ValueText
  folds : List Fold
  plain : ∀ c ∈ key, c ≠ colon ∧ c ≠ cr ∧ c ≠ lf ∧ c ≠ 0
  start : ∀ c ∈ key.head?, isblank c = false
  blank : ∀ c ∈ lead, isblank c = true

def Fold.text (f : Fold) : List UInt8 := f.blanks ++ (f.value.val ++ [cr, lf])

namespace FoldedHeader

variable (h : FoldedHeader)

/-- The first line up to its CR LF. -/
def line : List UInt8 := h.key ++ colon :: (h.lead ++ h.value.val)

def text : List UInt8 := h.line ++ [cr, lf] ++ h.folds.flatMap Fold.text

/-- The parts of the value, line by line. -/
def values : List (List UInt8) := h.value.val :: h.folds.map fun f => f.value.val

/-- The line that the parser puts together. -/
def joined : List UInt8 := h.key ++ colon :: (h.lead ++ h.values.flatten)

end FoldedHeader

/-- Behind the header, however its bytes and the first byte `c` of the next line
are cut into pieces, the message has one header more, and the words of its value
are those of the lines, one line after the other. -/
def KeepsWords (h : FoldedHeader) (msg : HttpMessage) (s : Parser) (c : UInt8) : Prop :=
  ∀ pieces, pieces.flatten = h.text ++ [c] → ∃ t used value,
    parsePieces (some s) pieces = .ok (some t, used) ∧
      t.msg = httpcMessageSetValue msg (CStr.ofBuffer (trim h.key)) value ∧
      words isblank value.val = h.values.flatMap (words isblank)

/-! ## A fold -/

/-- The blanks of a fold are being skipped. -/
structure Skipping (msg : HttpMessage) (line : List UInt8) (s : Parser) : Prop where
  inv : Invariant s
  state : s.pd.state = .lsw
  lastState : s.pd.lastState = .headers
  linedata : s.pd.linedata = line
  msg : s.msg = msg

/-- Text that `strstr` passes over. -/
def Plain (line : List UInt8) : Prop := (0 : UInt8) ∉ line ∧ cr ∉ line

theorem Plain.append {line line' : List UInt8} (h : Plain line) (h' : Plain line') :
    Plain (line ++ line') := by
  simp only [Plain, List.mem_append, not_or]
  exact ⟨⟨h.1, h'.1⟩, h.2, h'.2⟩

theorem ValueText.isPlain (v : ValueText) : Plain v.val :=
  ⟨fun hmem => (v.plain 0 hmem).2.2 rfl, fun hmem => (v.plain cr hmem).1 rfl⟩

theorem ByteStep.eq_of_fold {c : UInt8} {s t : Parser} {line : List UInt8}
    (hs : s.pd.state = .crlf) (hline : s.pd.linedata = line ++ [cr, lf]) (hplain : Plain line)
    (hc : isblank c = true) (h : ByteStep c s t) : t = (s.setState .lsw).setLine line := by
  cases h with
  | fold hstate hc' r hr =>
      rw [hline, strstrPair_of_notMem hplain.1 hplain.2 (by decide), Option.some.injEq] at hr
      rw [hline, ← hr, truncateAt, List.take_left]
  | nextLine hstate hc' => simp_all
  | _ => simp_all

theorem ByteStep.eq_of_lsw {c : UInt8} {s t : Parser} (hs : s.pd.state = .lsw)
    (h : ByteStep c s t) :
    t = if isblank c then s else appended c (s.setState s.pd.lastState) := by
  cases h with
  | foldBlank hstate hc => rw [if_pos hc]
  | foldText hstate hc => simp [hc]
  | _ => simp_all

/-- Blanks behind the first one are skipped. -/
theorem outcome_skip {msg : HttpMessage} {line : List UInt8} {s : Parser}
    (hs : Skipping msg line s) {blanks : List UInt8} (hblank : ∀ c ∈ blanks, isblank c = true) :
    Outcome appendByte s blanks True (Skipping msg line) := by
  induction blanks generalizing s with
  | nil => exact .nil hs
  | cons c blanks ih =>
      rw [List.forall_mem_cons] at hblank
      have hfirst : Outcome appendByte s [c] True (· = s) := by
        refine .single ?_ fun t ht => ?_
        · rw [appendByte_isOk_iff hs.inv, StepSafe]
          simp only [hs.state]
          exact iff_of_true (Or.inl hblank.1) trivial
        · rw [(byteStep_of_appendByte hs.inv ht).2.eq_of_lsw hs.state, if_pos hblank.1]
      have hrest : ∀ t, t = s → Outcome appendByte t blanks True (Skipping msg line) := by
        rintro t rfl
        exact ih hs hblank.2
      exact (hfirst.append hrest).congr and_self_iff fun t ht => ht

/-- The blanks of a fold take the CR LF out of the line. -/
theorem outcome_blanks {msg : HttpMessage} {line : List UInt8} {s : Parser}
    (hs : Pending msg line s) (hplain : Plain line) {blanks : List UInt8} (hne : blanks ≠ [])
    (hblank : ∀ c ∈ blanks, isblank c = true) :
    Outcome appendByte s blanks True (Skipping msg line) := by
  obtain ⟨c, blanks, rfl⟩ := List.exists_cons_of_ne_nil hne
  rw [List.forall_mem_cons] at hblank
  have hfirst : Outcome appendByte s [c] True (Skipping msg line) := by
    refine .single ?_ fun t ht => ?_
    · rw [appendByte_isOk_iff hs.inv, StepSafe]
      simp only [hs.state]
      exact iff_of_true (Or.inl hblank.1) trivial
    · have hinv := invariant_appendByte c s t hs.inv ht
      have ht := (byteStep_of_appendByte hs.inv ht).2.eq_of_fold hs.state hs.linedata hplain
        hblank.1
      subst ht
      exact ⟨hinv, rfl, hs.lastState, rfl, hs.msg⟩
  exact (hfirst.append fun t ht => outcome_skip ht hblank.2).congr (and_self_iff) fun t ht => ht

/-- The text of a fold is put behind the line as it stands. -/
theorem outcome_fold {msg : HttpMessage} {line : List UInt8} {s : Parser}
    (hs : Pending msg line s) (hplain : Plain line) (hne : line ≠ []) (f : Fold) :
    Outcome appendByte s f.text (line.length + f.value.val.length + 2 ≤ maxLine)
      (Pending msg (line ++ f.value.val)) := by
  obtain ⟨c, rest, hvalue, hc⟩ := f.value.start
  have hcr : cr ∉ rest := fun hmem => f.value.isPlain.2 (by simp [hvalue, hmem])
  have hfirst : ∀ t, Skipping msg line t → Outcome appendByte t [c] (line.length < maxLine)
      fun u => Invariant u ∧ u.pd.state = .headers ∧ u.pd.linedata = line ++ [c] ∧ u.msg = msg := by
    intro t ht
    refine .single ?_ fun u hu => ?_
    · rw [appendByte_isOk_iff ht.inv, StepSafe]
      simp only [ht.state, ParserData.lineDatasize, ht.linedata, hc]
      exact or_iff_right (by decide)
    · refine ⟨invariant_appendByte c t u ht.inv hu, ?_⟩
      have heq := (byteStep_of_appendByte ht.inv hu).2.eq_of_lsw ht.state
      rw [hc, if_neg (by decide)] at heq
      subst heq
      exact ⟨ht.lastState, by simp [ht.linedata, appended], ht.msg⟩
  have hrest : ∀ t, (Invariant t ∧ t.pd.state = .headers ∧ t.pd.linedata = line ++ [c] ∧
      t.msg = msg) → Outcome appendByte t (rest ++ [cr, lf])
        (line.length + f.value.val.length + 2 ≤ maxLine) (Pending msg (line ++ f.value.val)) := by
    rintro t ⟨ht, hstate, hline, hmsg⟩
    obtain ⟨d, line', rfl⟩ := List.exists_cons_of_ne_nil hne
    have hd : d ≠ cr := fun hd => hplain.2 (by simp [hd])
    refine (outcome_line ht (Or.inr hstate) hcr ⟨d, _, by rw [hline]; rfl, hd⟩).congr ?_ ?_
    · simp only [hline, hvalue, List.length_append, List.length_cons, List.length_nil]
      omega
    · rintro u ⟨hu, hustate, hulast, huline, humsg⟩
      refine ⟨hu, hustate, hulast.trans hstate, ?_, humsg.trans hmsg⟩
      rw [huline, hline, hvalue]
      simp
  have hwhole := (outcome_blanks hs hplain f.nonempty f.blank).append fun t ht =>
    (hfirst t ht).append hrest
  have htext : f.text = f.blanks ++ ([c] ++ (rest ++ [cr, lf])) := by
    rw [Fold.text, hvalue]
    rfl
  rw [htext]
  exact hwhole.congr ⟨fun h => h.2.2, fun h => ⟨trivial, by omega, h⟩⟩ fun t ht => ht

/-- Every fold of a header does. -/
theorem outcome_folds {msg : HttpMessage} {line : List UInt8} {s : Parser}
    (hs : Pending msg line s) (hplain : Plain line) (hne : line ≠ []) (folds : List Fold) :
    Outcome appendByte s (folds.flatMap Fold.text)
      (line.length + (folds.map fun f => f.value.val).flatten.length + 2 ≤ maxLine)
      (Pending msg (line ++ (folds.map fun f => f.value.val).flatten)) := by
  induction folds generalizing line s with
  | nil =>
      have hfits : line.length + 2 ≤ maxLine := by
        have := hs.inv.buffer.fits.trans hs.inv.buffer.bounded
        rwa [ParserData.lineDatasize, hs.linedata, List.length_append] at this
      refine (Outcome.nil hs).congr (iff_of_true trivial (by simpa using hfits)) fun t ht => ?_
      simpa using ht
  | cons f folds ih =>
      have hline : Plain (line ++ f.value.val) := hplain.append f.value.isPlain
      have hwhole := (outcome_fold hs hplain hne f).append fun t ht =>
        ih ht hline (by simp [hne])
      refine hwhole.congr ?_ fun t ht => ?_
      · simp only [List.length_append, List.map_cons, List.flatten_cons]
        omega
      · simpa [List.append_assoc] using ht

/-! ## The whole header -/

theorem FoldedHeader.plain_line (h : FoldedHeader) : Plain h.line := by
  have hkey : Plain h.key :=
    ⟨fun hmem => (h.plain 0 hmem).2.2.2 rfl, fun hmem => (h.plain cr hmem).2.1 rfl⟩
  have hcolon : Plain [colon] := by
    unfold Plain
    decide
  have hlead : Plain h.lead :=
    ⟨fun hmem => absurd (h.blank 0 hmem) (by decide),
      fun hmem => absurd (h.blank cr hmem) (by decide)⟩
  exact hkey.append (hcolon.append (hlead.append h.value.isPlain))

/-- The line of a header begins with a byte that is no blank and no CR. -/
theorem FoldedHeader.line_eq (h : FoldedHeader) :
    ∃ c rest, h.line = c :: rest ∧ isblank c = false ∧ c ≠ cr := by
  cases hkey : h.key with
  | nil =>
      refine ⟨colon, h.lead ++ h.value.val, ?_, by decide, by decide⟩
      rw [FoldedHeader.line, hkey]
      rfl
  | cons c rest =>
      refine ⟨c, rest ++ colon :: (h.lead ++ h.value.val), ?_, ?_, ?_⟩
      · rw [FoldedHeader.line, hkey]
        rfl
      · exact h.start c (by simp [hkey])
      · exact (h.plain c (by simp [hkey])).2.1

theorem outcome_foldedHeader {msg : HttpMessage} {s : Parser} (hs : LineEnd msg s)
    (h : FoldedHeader) :
    Outcome appendByte s h.text (h.joined.length + 2 ≤ maxLine) (Pending msg h.joined) := by
  obtain ⟨c, rest, hline, hblank, hc⟩ := h.line_eq
  have hcr : cr ∉ rest := fun hmem => h.plain_line.2 (by simp [hline, hmem])
  have hwhole := (outcome_nextHeader hs hblank hc hcr).append fun t ht =>
    outcome_folds (hline ▸ ht) h.plain_line (by simp [hline]) h.folds
  have htext : h.text = c :: rest ++ [cr, lf] ++ h.folds.flatMap Fold.text := by
    rw [FoldedHeader.text, hline]
  have hjoined : h.joined = h.line ++ (h.folds.map fun f => f.value.val).flatten := by
    simp [FoldedHeader.joined, FoldedHeader.line, FoldedHeader.values]
  rw [htext, hjoined, List.length_append]
  refine hwhole.congr ⟨fun hfits => hfits.2, fun hfits => ⟨?_, hfits⟩⟩ fun t ht => ht
  rw [hline, List.length_cons] at hfits
  omega

/-! ## The stored value -/

theorem FoldedHeader.startsWord_values (h : FoldedHeader) :
    ∀ v ∈ h.values, StartsWord isblank v := by
  intro v hv
  rcases List.mem_cons.mp hv with rfl | hv
  · exact h.value.start
  · obtain ⟨f, -, rfl⟩ := List.mem_map.mp hv
    exact f.value.start

theorem FoldedHeader.plain_values (h : FoldedHeader) :
    ∀ c ∈ h.values.flatten, c ≠ cr ∧ c ≠ lf ∧ c ≠ 0 := by
  intro c hc
  obtain ⟨v, hv, hcv⟩ := List.mem_flatten.mp hc
  rcases List.mem_cons.mp hv with rfl | hv
  · exact h.value.plain c hcv
  · obtain ⟨f, -, rfl⟩ := List.mem_map.mp hv
    exact f.value.plain c hcv

/-- Within a line the white space at the ends is blanks. -/
theorem FoldedHeader.isspace_values (h : FoldedHeader) {c : UInt8} (hc : c ∈ h.values.flatten) :
    isspace c = isblank c := by
  obtain ⟨hcr, hlf, -⟩ := h.plain_values c hc
  rw [isspace, beq_eq_false_iff_ne.mpr hcr, beq_eq_false_iff_ne.mpr hlf, Bool.or_false,
    Bool.or_false]

theorem FoldedHeader.trim_ne_nil (h : FoldedHeader) : trim h.values.flatten ≠ [] := by
  intro hnil
  obtain ⟨front, back, hsplit, hfront, hback⟩ := exists_trim_append h.values.flatten
  obtain ⟨c, rest, hvalue, hc⟩ := h.value.start
  have hmem : c ∈ h.values.flatten := by simp [FoldedHeader.values, hvalue]
  have hspace := h.isspace_values hmem
  rw [hsplit, hnil, List.append_nil, List.mem_append] at hmem
  rw [hc, hmem.elim (hfront c) (hback c)] at hspace
  cases hspace

/-- The value has the words of the lines put together. -/
theorem FoldedHeader.words_trim (h : FoldedHeader) :
    words isblank (CStr.ofBuffer (trim h.values.flatten)).val =
      words isblank h.values.flatten := by
  obtain ⟨front, back, hsplit, hfront, hback⟩ := exists_trim_append h.values.flatten
  have hmem : ∀ {c}, c ∈ front ∨ c ∈ trim h.values.flatten ∨ c ∈ back →
      c ∈ h.values.flatten := by
    intro c hc
    rw [hsplit]
    simpa only [List.mem_append, or_assoc] using hc
  have hval : (CStr.ofBuffer (trim h.values.flatten)).val = trim h.values.flatten := by
    refine List.takeWhile_eq_self_iff.mpr fun c hc => ?_
    exact decide_eq_true (h.plain_values c (hmem (Or.inr (Or.inl hc)))).2.2
  have hfront' : ∀ c ∈ front, isblank c = true := fun c hc =>
    (h.isspace_values (hmem (Or.inl hc))).symm.trans (hfront c hc)
  have hback' : ∀ c ∈ back, isblank c = true := fun c hc =>
    (h.isspace_values (hmem (Or.inr (Or.inr hc)))).symm.trans (hback c hc)
  rw [hval]
  conv_rhs => rw [hsplit]
  rw [words_append_seps hback', words_of_seps hfront']

/-- The pieces of the joined line that `parseHeaderLine` cuts out. -/
theorem FoldedHeader.header_joined (h : FoldedHeader) :
    headerName (h.joined ++ [cr, lf]) = trim h.key ∧
      headerValue (h.joined ++ [cr, lf]) = trim h.values.flatten ∧
      (HeaderLineOk (h.joined ++ [cr, lf]) ↔ (trim h.key).length ≠ 1) := by
  have hcolon : colon ∉ h.key := fun hmem => (h.plain colon hmem).1 rfl
  have htext : h.joined ++ [cr, lf] =
      h.key ++ colon :: (h.lead ++ h.values.flatten ++ [cr, lf]) := by
    simp [FoldedHeader.joined]
  have hname : headerName (h.joined ++ [cr, lf]) = trim h.key := by
    rw [htext, headerName_append hcolon]
  have hvalue : headerValue (h.joined ++ [cr, lf]) = trim h.values.flatten := by
    obtain ⟨front, back, hsplit, hfront, hback⟩ := exists_trim_append h.values.flatten
    have hend : ∀ c ∈ [cr, lf], isspace c = true := by decide +kernel
    have hfront' : ∀ c ∈ h.lead ++ front, isspace c = true := by
      intro c hc
      rcases List.mem_append.mp hc with hc | hc
      · simp [isspace, h.blank c hc]
      · exact hfront c hc
    have hback' : ∀ c ∈ back ++ [cr, lf], isspace c = true := fun c hc =>
      (List.mem_append.mp hc).elim (hback c) (hend c)
    rw [htext, headerValue_append hcolon]
    have hwhole := trim_append (trimmed_trim h.trim_ne_nil) _ _ hfront' hback'
    conv_lhs => rw [hsplit]
    simpa only [List.append_assoc] using hwhole
  refine ⟨hname, hvalue, ?_⟩
  rw [HeaderLineOk, hname, hvalue]
  constructor
  · exact fun hok => hok.2.1
  · exact fun hlen => ⟨by simp [htext], hlen, h.trim_ne_nil⟩

/-- The first byte of the next line stores the header. -/
theorem outcome_storeFolded {msg : HttpMessage} {h : FoldedHeader} {s : Parser}
    (hs : Pending msg h.joined s) {c : UInt8} (hc : isblank c = false) :
    Outcome appendByte s [c] ((trim h.key).length ≠ 1) fun t =>
      t.msg = httpcMessageSetValue msg (CStr.ofBuffer (trim h.key))
        (CStr.ofBuffer (trim h.values.flatten)) := by
  obtain ⟨hname, hvalue, hok⟩ := h.header_joined
  have hheaders : ¬ s.pd.lastState = .startline := by
    rw [hs.lastState]
    decide
  refine .single ?_ fun t ht => ?_
  · rw [appendByte_isOk_iff hs.inv, StepSafe]
    simp only [hs.state, hc, LineOk, hs.linedata, hok, hs.lastState]
    simp
  · rw [(byteStep_of_appendByte hs.inv ht).2.eq_of_crlf hs.state hc]
    show finishedMsg s = _
    rw [finishedMsg, if_neg hheaders, hs.linedata, hname, hvalue, hs.msg]

/-- The words of a folded header survive exactly when its name is not a single
character, the whole of it fits the line buffer, and every line that is followed
by another one ends with a blank. -/
theorem keepsWords_iff {msg : HttpMessage} {s : Parser} (hs : LineEnd msg s) (h : FoldedHeader)
    {c : UInt8} (hc : isblank c = false) :
    KeepsWords h msg s c ↔ (trim h.key).length ≠ 1 ∧ h.joined.length + 2 ≤ maxLine ∧
      ∀ v ∈ h.values.dropLast, EndsSep isblank v := by
  have hinv : Invariant ((some s).getD parserCreate) := hs.inv
  have hout := (outcome_foldedHeader hs h).append fun t ht => outcome_storeFolded ht hc
  rw [← words_flatten_iff h.startsWord_values, ← h.words_trim]
  constructor
  · intro hkeeps
    obtain ⟨t, used, value, ht, hmsg, hwords⟩ := hkeeps [h.text ++ [c]] List.flatten_singleton
    have hrun := run_of_parsePieces hinv ht
    rw [List.flatten_singleton] at hrun
    obtain ⟨hfits, hkey⟩ := hout.isOk_iff.mp ⟨t, hrun⟩
    refine ⟨hkey, hfits, ?_⟩
    have hstored := (hmsg.symm.trans (hout.post t hrun))
    rw [httpcMessageSetValue, httpcMessageSetValue, HttpMessage.mk.injEq] at hstored
    have hvalue := (List.cons.inj hstored.2.1).1
    rw [HttpHeader.mk.injEq] at hvalue
    rw [← hvalue.2, hwords]
  · rintro ⟨hkey, hfits, hwords⟩ pieces hpieces
    obtain ⟨t, ht⟩ := hout.isOk_iff.mpr ⟨hfits, hkey⟩
    obtain ⟨used, hused⟩ := appendBytes_of_run ht
    refine ⟨t, used, _, ?_, hout.post t ht, hwords⟩
    rw [parsePieces_eq hinv fun hnone => absurd hnone (by simp), hpieces]
    exact congrArg _ hused

/-- The header `test : v1 CR LF efg CR LF`. -/
def testHeader (value : ValueText) : FoldedHeader where
  key := bytes "test ".toList
  lead := bytes [' ']
  value := value
  folds := [⟨bytes [' '],
    ⟨bytes "efg ".toList, ⟨charByte 'e', bytes ['f', 'g', ' '], by decide +kernel, by decide⟩,
      by decide +kernel⟩, by decide, by decide +kernel⟩]
  plain := by decide +kernel
  start := by decide +kernel
  blank := by decide +kernel

/-- The text `abcd`, with a blank behind it or without. -/
def abcdText (back : Bool) : ValueText where
  val := bytes (if back then "abcd ".toList else "abcd".toList)
  start := by
    cases back with
    | false => exact ⟨charByte 'a', bytes ['b', 'c', 'd'], by decide +kernel, by decide⟩
    | true => exact ⟨charByte 'a', bytes ['b', 'c', 'd', ' '], by decide +kernel, by decide⟩
  plain := by
    cases back with
    | false => decide +kernel
    | true => decide +kernel

/-- Behind a start line a header can begin. -/
theorem lineEnd_startLine :
    ∃ msg s used, parsePieces none [startLineText getText rootText versionText] =
      .ok (some s, used) ∧ LineEnd msg s := by
  have hok : StartLineOk getText rootText versionText :=
    ⟨by decide +kernel, by decide +kernel, by decide +kernel⟩
  have hout := outcome_startLineText hok
  obtain ⟨s, hs⟩ := hout.isOk_iff.mpr (by decide +kernel)
  obtain ⟨used, hused⟩ := @parsePieces_of_run none invariant_start _ s hs
  exact ⟨_, s, used, hused, hout.post s hs⟩

theorem keepsWords_iff_separated :
    ∃ msg s, LineEnd msg s ∧
      (KeepsWords (testHeader (abcdText true)) msg s cr ↔
        (trim (testHeader (abcdText true)).key).length ≠ 1 ∧
        (testHeader (abcdText true)).joined.length + 2 ≤ maxLine ∧
        ∀ v ∈ (testHeader (abcdText true)).values.dropLast, EndsSep isblank v) := by
  obtain ⟨msg, s, used, -, hs⟩ := lineEnd_startLine
  exact ⟨msg, s, hs, keepsWords_iff hs _ (by decide)⟩

/-- Without that blank the fold joins `abcd` and `efg`. -/
theorem not_keepsWords_joined :
    ∃ msg s used, parsePieces none [startLineText getText rootText versionText] =
      .ok (some s, used) ∧ LineEnd msg s ∧
      ¬ KeepsWords (testHeader (abcdText false)) msg s cr := by
  obtain ⟨msg, s, used, hused, hs⟩ := lineEnd_startLine
  refine ⟨msg, s, used, hused, hs, fun hkeeps => ?_⟩
  obtain ⟨t, n, value, ht, hmsg, hwords⟩ := hkeeps _ List.flatten_singleton
  have hparse := parsePieces_append none [startLineText getText rootText versionText]
    [(testHeader (abcdText false)).text ++ [cr]]
  simp only [hused, ok_bind, ht, pure_eq_ok] at hparse
  have hstored : (parsePieces none ([startLineText getText rootText versionText] ++
      [(testHeader (abcdText false)).text ++ [cr]])).toOption.map (fun r =>
        (r.1.map fun s => s.msg.headers.map fun h => words isblank h.value.val)) =
      some (some [[bytes "abcdefg".toList]]) := by decide +kernel
  rw [hparse] at hstored
  have hone : (t.msg.headers.map fun h => words isblank h.value.val) = [[bytes "abcdefg".toList]] :=
    Option.some.inj (Option.some.inj hstored)
  rw [hmsg, httpcMessageSetValue, List.map_cons] at hone
  have hvalue := (List.cons.inj hone).1
  rw [hwords] at hvalue
  revert hvalue
  decide +kernel

end LibSimple.Http
