import LibSimple.Http.MessageText
import LibSimple.Http.Chunking

/-!
# Line breaks in stored headers

The parser ends a line at CR LF only, and trims white space at the ends of key
and value.  A CR or LF in between is stored, and the encoder prints it.
-/

namespace LibSimple.Http

open CLang Runs

/-! ## Line breaks in a string -/

/-- The string has neither a CR nor an LF. -/
def NoLineBreak (s : CStr) : Prop := cr ∉ s.val ∧ lf ∉ s.val

instance (s : CStr) : Decidable (NoLineBreak s) := inferInstanceAs (Decidable (_ ∧ _))

/-- Neither text of the header has a line break. -/
def HttpHeader.Unbroken (h : HttpHeader) : Prop := NoLineBreak h.key ∧ NoLineBreak h.value

instance (h : HttpHeader) : Decidable h.Unbroken := inferInstanceAs (Decidable (_ ∧ _))

/-! ## Line breaks that trimming does not remove -/

/-- A CR or LF stands between two bytes that are not white space, and no NUL
before it. -/
def Broken (part : List UInt8) : Prop :=
  ∃ pre c post, part = pre ++ c :: post ∧ (c = cr ∨ c = lf) ∧ (0 : UInt8) ∉ pre ∧
    (∃ x ∈ pre, isspace x = false) ∧ ∃ y ∈ post, isspace y = false

theorem exists_trim_append (text : List UInt8) :
    ∃ front back, text = front ++ trim text ++ back ∧ (∀ c ∈ front, isspace c = true) ∧
      ∀ c ∈ back, isspace c = true := by
  have hfront := List.takeWhile_append_dropWhile (p := isspace) (l := text)
  have hback := List.rdropWhile_append_rtakeWhile (p := isspace) (l := text.dropWhile isspace)
  refine ⟨text.takeWhile isspace, (text.dropWhile isspace).rtakeWhile isspace, ?_, ?_, ?_⟩
  · rw [trim, List.append_assoc, hback, hfront]
  · exact fun c hc => List.mem_takeWhile_imp hc
  · exact fun c hc => List.mem_rtakeWhile_imp hc

theorem trimmed_trim {text : List UInt8} (h : trim text ≠ []) : Trimmed (trim text) := by
  have hpre : trim text <+: text.dropWhile isspace := List.rdropWhile_prefix _ _
  refine ⟨h, fun c hc => ?_, fun c hc => ?_⟩
  · have hne : text.dropWhile isspace ≠ [] := by
      intro hnil
      rw [hnil, List.prefix_nil] at hpre
      exact h hpre
    have hhead := List.head_dropWhile_not isspace hne
    rw [List.head?_eq_some_head h, Option.mem_some_iff, hpre.head h] at hc
    rw [← hc]
    exact hhead
  · have hlast := List.rdropWhile_last_not isspace (text.dropWhile isspace) h
    rw [List.getLast?_eq_some_getLast h, Option.mem_some_iff] at hc
    rw [← hc]
    exact Bool.eq_false_iff.mpr hlast

/-- What is white space at neither end of a text survives trimming. -/
theorem trim_of_inner {pre post : List UInt8} (c : UInt8) (hpre : ∃ x ∈ pre, isspace x = false)
    (hpost : ∃ y ∈ post, isspace y = false) :
    trim (pre ++ c :: post) = pre.dropWhile isspace ++ c :: post.rdropWhile isspace := by
  have hpre' : pre.dropWhile isspace ≠ [] := by
    intro hnil
    obtain ⟨x, hx, hspace⟩ := hpre
    have := List.dropWhile_eq_nil_iff.mp hnil x hx
    simp [hspace] at this
  have hpost' : post.rdropWhile isspace ≠ [] := by
    intro hnil
    obtain ⟨y, hy, hspace⟩ := hpost
    have := List.rdropWhile_eq_nil_iff.mp hnil y hy
    simp [hspace] at this
  have hcons : (c :: post).rdropWhile isspace = c :: post.rdropWhile isspace := by
    rw [rdropWhile_cons, if_neg fun h => hpost' h.1]
  rw [trim, List.dropWhile_append, if_neg (by simpa using hpre'), rdropWhile_append, hcons,
    if_neg (List.cons_ne_nil _ _)]

theorem broken_iff (part : List UInt8) :
    Broken part ↔ ¬ NoLineBreak (CStr.ofBuffer (trim part)) := by
  constructor
  · rintro ⟨pre, c, post, rfl, hc, hnul, hpre, hpost⟩ ⟨hcr, hlf⟩
    have hmem : c ∈ (CStr.ofBuffer (trim (pre ++ c :: post))).val := by
      have hzero : c ≠ 0 := by
        rcases hc with rfl | rfl
        · decide
        · decide
      have hfront : ∀ x ∈ pre.dropWhile isspace, decide (x ≠ 0) = true := by
        intro x hx
        rw [decide_eq_true_iff]
        rintro rfl
        exact hnul ((List.dropWhile_suffix isspace).subset hx)
      show c ∈ (trim (pre ++ c :: post)).takeWhile (· ≠ 0)
      rw [trim_of_inner c hpre hpost, List.takeWhile_append_of_pos hfront,
        List.takeWhile_cons_of_pos (by simpa using hzero)]
      simp
    rcases hc with rfl | rfl
    · exact hcr hmem
    · exact hlf hmem
  · intro h
    obtain ⟨c, hc, hmem⟩ : ∃ c, (c = cr ∨ c = lf) ∧ c ∈ (trim part).takeWhile (· ≠ 0) := by
      rw [NoLineBreak, not_and_or, not_not, not_not] at h
      rcases h with h | h
      · exact ⟨cr, Or.inl rfl, h⟩
      · exact ⟨lf, Or.inr rfl, h⟩
    have hspace : isspace c = true := by
      rcases hc with rfl | rfl
      · decide
      · decide
    obtain ⟨u, w, huw⟩ := List.append_of_mem hmem
    obtain ⟨v, htrim⟩ : ∃ v, trim part = u ++ c :: v := by
      refine ⟨w ++ (trim part).dropWhile (· ≠ 0), ?_⟩
      conv_lhs => rw [← List.takeWhile_append_dropWhile (p := (· ≠ 0)) (l := trim part)]
      rw [huw]
      simp
    have htrimmed : Trimmed (trim part) := trimmed_trim (by simp [htrim])
    have hnul : (0 : UInt8) ∉ u := by
      intro hzero
      have := List.mem_takeWhile_imp (huw ▸ List.mem_append_left _ hzero)
      simp at this
    obtain ⟨x, hx, hxspace⟩ : ∃ x ∈ u, isspace x = false := by
      cases u with
      | nil => simpa [hspace] using htrimmed.front c (by simp [htrim])
      | cons x u => exact ⟨x, List.mem_cons_self, htrimmed.front x (by simp [htrim])⟩
    obtain ⟨y, hy, hyspace⟩ : ∃ y ∈ v, isspace y = false := by
      rcases List.eq_nil_or_concat v with rfl | ⟨v, y, rfl⟩
      · simpa [hspace] using htrimmed.back c (by simp [htrim])
      · have hlast : (trim part).getLast? = some y := by
          rw [htrim, List.concat_eq_append, ← List.cons_append, ← List.append_assoc,
            List.getLast?_concat]
        exact ⟨y, by simp, htrimmed.back y hlast⟩
    obtain ⟨front, back, hpart, hfront, -⟩ := exists_trim_append part
    refine ⟨front ++ u, c, v ++ back, ?_, hc, ?_, ⟨x, ?_, hxspace⟩, y, ?_, hyspace⟩
    · rw [hpart, htrim]
      simp
    · rw [List.mem_append, not_or]
      exact ⟨fun hzero => absurd (hfront 0 hzero) (by decide), hnul⟩
    · exact List.mem_append_right _ hx
    · exact List.mem_append_left _ hy

/-! ## Headers along a stream -/

/-- No header that is ever stored has a line break. -/
def HeadersUnbroken (data : List UInt8) : Prop :=
  ∀ s, ReachedOn data s → ∀ h ∈ s.msg.headers, h.Unbroken

/-- The byte makes the pending line go to `parseHeaderLine`. -/
def FinishesHeader (c : UInt8) (s : Parser) : Prop :=
  s.pd.state = .crlf ∧ isblank c = false ∧ s.pd.lastState ≠ .startline

/-- A header line that is finished has no break inside of what stands before or
behind its first colon. -/
def FinishesUnbroken (c : UInt8) (s : Parser) : Prop :=
  FinishesHeader c s →
    ¬ Broken (s.pd.linedata.takeWhile (· != colon)) ∧
      ¬ Broken (s.pd.linedata.dropWhile (· != colon)).tail

/-- The header that `parseHeaderLine` adds for the pending line. -/
def pendingHeader (s : Parser) : HttpHeader :=
  ⟨CStr.ofBuffer (headerName s.pd.linedata), CStr.ofBuffer (headerValue s.pd.linedata)⟩

/-- A step adds the header of a finished line, or none. -/
theorem headers_byteStep {c : UInt8} {s t : Parser} (hstep : ByteStep c s t) :
    FinishesHeader c s ∧ t.msg.headers = pendingHeader s :: s.msg.headers ∨
      ¬ FinishesHeader c s ∧ t.msg.headers = s.msg.headers := by
  cases hstep with
  | nextLine hstate hc hline =>
      by_cases hlast : s.pd.lastState = .startline
      · refine Or.inr ⟨fun h => h.2.2 hlast, ?_⟩
        simp [finishedMsg, hlast]
      · refine Or.inl ⟨⟨hstate, hc, hlast⟩, ?_⟩
        simp [finishedMsg, hlast, httpcMessageSetValue, pendingHeader]
  | text hstate hc | textCr hstate hc =>
      refine Or.inr ⟨fun h => ?_, rfl⟩
      rcases hstate with hs | hs
      · simp [FinishesHeader, hs] at h
      · simp [FinishesHeader, hs] at h
  | fold hstate hc r hr => exact Or.inr ⟨fun h => by simp [FinishesHeader, hc] at h, rfl⟩
  | lineEnd hstate | blankLine hstate | strayCr hstate | foldBlank hstate | foldText hstate
  | body hstate | bodyEnd hstate | complete hstate =>
      exact Or.inr ⟨fun h => by simp [FinishesHeader, hstate] at h, rfl⟩

theorem pendingHeader_unbroken_iff (s : Parser) :
    (pendingHeader s).Unbroken ↔
      ¬ Broken (s.pd.linedata.takeWhile (· != colon)) ∧
        ¬ Broken (s.pd.linedata.dropWhile (· != colon)).tail := by
  rw [broken_iff, broken_iff, not_not, not_not]
  rfl

/-- No line break is ever stored exactly when every finished header line is free
of breaks inside its key and value. -/
theorem headersUnbroken_iff (data : List UInt8) :
    HeadersUnbroken data ↔
      Along appendByte (fun c s _ => FinishesUnbroken c s) parserCreate data := by
  have hstart : Invariant parserCreate ∧ ∀ h ∈ parserCreate.msg.headers, h.Unbroken :=
    ⟨invariant_parserCreate, by simp [parserCreate, httpcMessageCreate]⟩
  have hiff : ∀ c s t, (Invariant s ∧ ∀ h ∈ s.msg.headers, h.Unbroken) →
      appendByte c s = .ok t → ((∀ h ∈ t.msg.headers, h.Unbroken) ↔ FinishesUnbroken c s) := by
    rintro c s t ⟨hinv, hs⟩ ht
    rw [FinishesUnbroken, ← pendingHeader_unbroken_iff]
    rcases headers_byteStep (byteStep_of_appendByte hinv ht).2 with ⟨hfin, heq⟩ | ⟨hfin, heq⟩
    · rw [heq, List.forall_mem_cons]
      exact ⟨fun h _ => h.1, fun h => ⟨h hfin, hs⟩⟩
    · rw [heq]
      exact iff_of_true hs fun h => absurd h hfin
  have hkeep : ∀ c s t, (Invariant s ∧ ∀ h ∈ s.msg.headers, h.Unbroken) →
      FinishesUnbroken c s → appendByte c s = .ok t →
      Invariant t ∧ ∀ h ∈ t.msg.headers, h.Unbroken := by
    intro c s t hs hC ht
    exact ⟨invariant_appendByte c s t hs.1 ht, (hiff c s t hs ht).mpr hC⟩
  rw [HeadersUnbroken, forall_reachedOn_iff, along_iff_along hiff hkeep hstart]
  exact and_iff_right hstart.2

/-- A header whose value has a bare LF inside. -/
def bareLfText : List UInt8 :=
  bytes ['G', ' ', '/', ' ', 'H'] ++ [cr, lf] ++ bytes ['A', 'B', ':', ' ', 'x'] ++ [lf] ++
    bytes ['E', 'F', ':', 'y'] ++ [cr, lf, cr, lf]

/-- The bare LF is stored, and the encoder prints it between two texts of which
the second one looks like a header. -/
theorem not_headersUnbroken_bareLf :
    (∃ s h, httpcParserParse none bareLfText = .ok (s, bareLfText.length) ∧
      s.pd.state = .complete ∧ s.msg.headers = [h] ∧
      headerText h = bytes ['A', 'B', ':', ' ', 'x'] ++ [lf] ++ bytes ['E', 'F', ':', 'y'] ++
        [cr, lf]) ∧
    ¬ HeadersUnbroken bareLfText := by
  let s := ((httpcParserParse none bareLfText).toOption.map Prod.fst).getD parserCreate
  let h := s.msg.headers.head?.getD ⟨contentLength, contentLength⟩
  have hrun : httpcParserParse none bareLfText = .ok (s, bareLfText.length) ∧
      s.pd.state = .complete ∧ s.msg.headers = [h] ∧
      headerText h = bytes ['A', 'B', ':', ' ', 'x'] ++ [lf] ++ bytes ['E', 'F', ':', 'y'] ++
        [cr, lf] ∧ ¬ h.Unbroken := by
    decide +kernel
  obtain ⟨hparse, hdone, hheaders, htext, hbroken⟩ := hrun
  refine ⟨⟨s, h, hparse, hdone, hheaders, htext⟩, fun hall => ?_⟩
  have hreach : ReachedOn bareLfText s := by
    rw [httpcParserParse_none] at hparse
    exact reachedOn_iff.mpr ⟨_, List.prefix_rfl, run_of_appendBytes hparse⟩
  apply hbroken
  exact hall s hreach h (by simp [hheaders])

end LibSimple.Http
