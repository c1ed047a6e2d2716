import LibSimple.Http.BlankLine

/-!
# The start line along a stream

A finished line is parsed only when the byte behind its CR LF arrives, by the
parser that `last_state` selects, while the end of the header phase is decided
from the raw line buffer.  So the start line may be missing in a complete
message, and a later line may replace it.
-/

namespace LibSimple.Http

open CLang Runs

/-- `parseStartLine` has stored all three texts. -/
def StartLineSet (msg : HttpMessage) : Prop :=
  msg.startLine.p1 ≠ none ∧ msg.startLine.p2 ≠ none ∧ msg.startLine.p3 ≠ none

instance (msg : HttpMessage) : Decidable (StartLineSet msg) :=
  inferInstanceAs (Decidable (_ ∧ _ ∧ _))

/-- The byte ends the header phase: an LF behind a pending CR, with a line
buffer that starts with CR LF. -/
def EndsHeaders (c : UInt8) (s : Parser) : Prop :=
  c = lf ∧ s.pd.state = .cr ∧ (s.pd.linedata ++ [lf]).take 2 = [cr, lf]

/-! ## What a step does to the start line -/

/-- Only a line that `last_state` sends to `parseStartLine` changes the start
line, and it sets all of it. -/
theorem startLine_byteStep {c : UInt8} {s t : Parser} (hstep : ByteStep c s t) :
    t.msg.startLine = s.msg.startLine ∨
      s.pd.state = .crlf ∧ s.pd.lastState = .startline ∧ StartLineSet t.msg := by
  cases hstep with
  | nextLine hstate hc hline =>
      by_cases hlast : s.pd.lastState = .startline
      · right
        refine ⟨hstate, hlast, ?_⟩
        simp [StartLineSet, finishedMsg, hlast, startLineTexts]
      · left
        simp [finishedMsg, hlast, httpcMessageSetValue]
  | _ => exact Or.inl rfl

theorem startLineSet_byteStep {c : UInt8} {s t : Parser} (hset : StartLineSet s.msg)
    (hstep : ByteStep c s t) : StartLineSet t.msg := by
  rcases startLine_byteStep hstep with heq | ⟨-, -, hset'⟩
  · rwa [StartLineSet, heq]
  · exact hset'

/-- The header phase is left by the byte that ends it, and by no other. -/
theorem left_byteStep_iff {c : UInt8} {s t : Parser} (hinv : Invariant s)
    (hstep : ByteStep c s t) : Left t ↔ Left s ∨ EndsHeaders c s := by
  cases hstep with
  | text hstate hc =>
      rcases hstate with h | h
      · simp [Left, EndsHeaders, h]
      · simp [Left, EndsHeaders, h]
  | textCr hstate hc =>
      rcases hstate with h | h
      · simp [Left, EndsHeaders, h]
      · simp [Left, EndsHeaders, h]
  | lineEnd hstate hc hblank => simp [Left, EndsHeaders, hstate, hblank]
  | blankLine hstate hc hblank =>
      apply iff_of_true
      · split_ifs
        · exact Or.inl rfl
        · exact Or.inr rfl
      · exact Or.inr ⟨hc, hstate, hblank⟩
  | strayCr hstate hc =>
      rcases hinv.lastState (Or.inl hstate) with h | h
      · simp [Left, EndsHeaders, hstate, hc, h]
      · simp [Left, EndsHeaders, hstate, hc, h]
  | fold hstate hc r hr => simp [Left, EndsHeaders, hstate]
  | nextLine hstate hc hok =>
      split_ifs
      · simp [Left, EndsHeaders, hstate]
      · simp [Left, EndsHeaders, hstate]
  | foldBlank hstate hc => simp [Left, EndsHeaders, hstate]
  | foldText hstate hc =>
      rcases hinv.lastState (Or.inr (Or.inr hstate)) with h | h
      · simp [Left, EndsHeaders, hstate, h]
      · simp [Left, EndsHeaders, hstate, h]
  | body hstate hlen => simp [Left, hstate]
  | bodyEnd hstate hlen => simp [Left, hstate]
  | complete hstate => simp [Left, hstate]

/-! ## How long the texts are -/

/-- The second text of the start line, the target of a request, fits into a line. -/
def TargetFits (msg : HttpMessage) : Prop :=
  ∀ target, msg.startLine.p2 = some target → target.strlen ≤ maxLine

theorem targetFits_byteStep {c : UInt8} {s t : Parser} (hinv : Invariant s)
    (hfits : TargetFits s.msg) (hstep : ByteStep c s t) : TargetFits t.msg := by
  cases hstep with
  | nextLine hstate hc hline =>
      intro target htarget
      by_cases hlast : s.pd.lastState = .startline
      · -- the text has been cut out of the line buffer
        have heq : target = CStr.ofBuffer (((s.pd.linedata.dropWhile (!isspace ·)).dropWhile
            isspace).takeWhile (!isspace ·)) := by
          simpa [finishedMsg, hlast, startLineTexts] using htarget.symm
        rw [heq]
        have hbuffer : s.pd.linedata.length ≤ maxLine :=
          hinv.buffer.fits.trans hinv.buffer.bounded
        exact (CStr.strlen_ofBuffer_le _).trans ((List.takeWhile_prefix _).length_le.trans
          ((List.dropWhile_suffix _).length_le.trans
            ((List.dropWhile_suffix _).length_le.trans hbuffer)))
      · exact hfits target (by simpa [finishedMsg, hlast, httpcMessageSetValue] using htarget)
  | _ => exact hfits

/-- A line is short enough for `int` lengths with four bytes more. -/
theorem TargetFits.strlen_le {msg : HttpMessage} (h : TargetFits msg) {target : CStr}
    (htarget : msg.startLine.p2 = some target) : target.strlen + 4 ≤ intMax := by
  have hfits := h target htarget
  rw [maxLine_eq] at hfits
  rw [intMax_eq]
  omega

/-- No target that comes out of the parser is longer than a line. -/
theorem targetFits_of_parse {data : List UInt8} {s : Parser} {used : ℕ}
    (h : httpcParserParse none data = .ok (s, used)) : TargetFits s.msg := by
  rw [httpcParserParse_none] at h
  have hkeep : ∀ c u v, (Invariant u ∧ TargetFits u.msg) → appendByte c u = .ok v →
      Invariant v ∧ TargetFits v.msg := by
    rintro c u v ⟨hinv, hfits⟩ hv
    exact ⟨invariant_appendByte c u v hinv hv,
      targetFits_byteStep hinv hfits (byteStep_of_appendByte hinv hv).2⟩
  have hstart : Invariant parserCreate ∧ TargetFits parserCreate.msg := by
    refine ⟨invariant_parserCreate, fun target htarget => ?_⟩
    cases htarget
  exact (run_invariant hkeep hstart (run_of_appendBytes h)).2

/-! ## A start line before the end -/

/-- Every message on the way that is past the header phase has a start line. -/
def StartLineBeforeEnd (data : List UInt8) : Prop :=
  ∀ s, ReachedOn data s → Left s → StartLineSet s.msg

/-- As long as no start line has been stored, an LF that arrives in `HTTP_CR` does not
find the line buffer, with that LF, to begin with CR LF. -/
def NotBlankLine (c : UInt8) (s : Parser) : Prop :=
  ¬ StartLineSet s.msg → c = lf → s.pd.state = .cr →
    (s.pd.linedata ++ [lf]).take 2 ≠ [cr, lf]

/-- The messages that are past the header phase have a start line exactly when no LF
leaves the header phase before a start line has been stored. -/
theorem startLineBeforeEnd_iff (data : List UInt8) :
    StartLineBeforeEnd data ↔
      Along appendByte (fun c s _ => NotBlankLine c s) parserCreate data := by
  have hstart : Invariant parserCreate ∧ (Left parserCreate → StartLineSet parserCreate.msg) :=
    ⟨invariant_parserCreate, by simp [Left, parserCreate]⟩
  have hiff : ∀ c s t, (Invariant s ∧ (Left s → StartLineSet s.msg)) →
      appendByte c s = .ok t → ((Left t → StartLineSet t.msg) ↔ NotBlankLine c s) := by
    rintro c s t ⟨hinv, hset⟩ ht
    have hstep := (byteStep_of_appendByte hinv ht).2
    rw [left_byteStep_iff hinv hstep]
    constructor
    · intro h hunset hc hstate hblank
      have hset' := h (Or.inr ⟨hc, hstate, hblank⟩)
      rcases startLine_byteStep hstep with heq | ⟨hcrlf, -⟩
      · exact hunset (by rwa [StartLineSet, heq] at hset')
      · rw [hstate] at hcrlf
        cases hcrlf
    · rintro h (hleft | ⟨hc, hstate, hblank⟩)
      · exact startLineSet_byteStep (hset hleft) hstep
      · by_contra hunset
        apply h _ hc hstate hblank
        exact fun hset' => hunset (startLineSet_byteStep hset' hstep)
  have hkeep : ∀ c s t, (Invariant s ∧ (Left s → StartLineSet s.msg)) →
      NotBlankLine c s → appendByte c s = .ok t →
      Invariant t ∧ (Left t → StartLineSet t.msg) := by
    intro c s t hs hC ht
    exact ⟨invariant_appendByte c s t hs.1 ht, (hiff c s t hs ht).mpr hC⟩
  rw [StartLineBeforeEnd, forall_reachedOn_iff, along_iff_along hiff hkeep hstart]
  exact and_iff_right hstart.2

/-- The states of the first line, when it does not start with a CR. -/
structure InFirstLine (s : Parser) : Prop where
  phase : s.pd.state = .startline ∨
    (s.pd.state = .cr ∨ s.pd.state = .crlf ∨ s.pd.state = .lsw) ∧ s.pd.lastState = .startline
  line : ∃ c rest, s.pd.linedata = c :: rest ∧ c ≠ cr

theorem InFirstLine.not_left {s : Parser} (h : InFirstLine s) : ¬ Left s := by
  rintro (hs | hs)
  · simpa [hs] using h.phase
  · simpa [hs] using h.phase

/-- The first line stays in the buffer, its first byte in front, until
`parseStartLine` gets it. -/
theorem inFirstLine_byteStep {c : UInt8} {s t : Parser} (h : InFirstLine s)
    (hstep : ByteStep c s t) : StartLineSet t.msg ∨ InFirstLine t := by
  obtain ⟨hphase, d, rest, hline, hd⟩ := h
  have happend : ∃ e more, s.pd.linedata ++ [c] = e :: more ∧ e ≠ cr :=
    ⟨d, rest ++ [c], by rw [hline]; rfl, hd⟩
  cases hstep with
  | text hstate hc => exact Or.inr ⟨by simpa using hphase, happend⟩
  | textCr hstate hc =>
      have hstart : s.pd.state = .startline := by
        rcases hstate with hs | hs
        · exact hs
        · simp [hs] at hphase
      exact Or.inr ⟨Or.inr ⟨Or.inl rfl, hstart⟩, happend⟩
  | lineEnd hstate hc hblank =>
      have hlast : s.pd.lastState = .startline := by simpa [hstate] using hphase
      exact Or.inr ⟨Or.inr ⟨Or.inr (Or.inl rfl), hlast⟩, happend⟩
  | blankLine hstate hc hblank =>
      rw [hline] at hblank
      cases rest with
      | nil => exact absurd (List.cons.inj hblank).1 hd
      | cons e rest => exact absurd (List.cons.inj hblank).1 hd
  | strayCr hstate hc =>
      have hlast : s.pd.lastState = .startline := by simpa [hstate] using hphase
      exact Or.inr ⟨Or.inl hlast, happend⟩
  | fold hstate hc r hr =>
      have hlast : s.pd.lastState = .startline := by simpa [hstate] using hphase
      refine Or.inr ⟨Or.inr ⟨Or.inr (Or.inr rfl), hlast⟩, ?_⟩
      cases r with
      | none => exact ⟨d, rest, hline, hd⟩
      | some i =>
          obtain ⟨more, hmore⟩ := strstrPair_match hr
          cases i with
          | zero =>
              rw [hline, List.drop_zero] at hmore
              cases hmore
              exact absurd rfl hd
          | succ i =>
              refine ⟨d, rest.take i, ?_, hd⟩
              show s.pd.linedata.take (i + 1) = d :: rest.take i
              rw [hline, List.take_succ_cons]
  | nextLine hstate hc hok =>
      have hlast : s.pd.lastState = .startline := by simpa [hstate] using hphase
      left
      simp [StartLineSet, finishedMsg, hlast, startLineTexts]
  | foldBlank hstate hc => exact Or.inr ⟨hphase, d, rest, hline, hd⟩
  | foldText hstate hc =>
      have hlast : s.pd.lastState = .startline := by simpa [hstate] using hphase
      exact Or.inr ⟨Or.inl hlast, happend⟩
  | body hstate hlen => simp [hstate] at hphase
  | bodyEnd hstate hlen => simp [hstate] at hphase
  | complete hstate => simp [hstate] at hphase

/-- A stream whose first byte is not a CR never lacks the start line. -/
theorem startLineBeforeEnd_of_first {c : UInt8} {data : List UInt8} (hc : c ≠ cr) :
    StartLineBeforeEnd (c :: data) := by
  have hkeep : ∀ x s t, (Invariant s ∧ (StartLineSet s.msg ∨ InFirstLine s)) →
      appendByte x s = .ok t → Invariant t ∧ (StartLineSet t.msg ∨ InFirstLine t) := by
    rintro x s t ⟨hinv, hs⟩ ht
    refine ⟨invariant_appendByte x s t hinv ht, ?_⟩
    have hstep := (byteStep_of_appendByte hinv ht).2
    rcases hs with hset | hfirst
    · exact Or.inl (startLineSet_byteStep hset hstep)
    · exact inFirstLine_byteStep hfirst hstep
  intro s hs hleft
  obtain ⟨pre, hpre, hrun⟩ := reachedOn_iff.mp hs
  cases pre with
  | nil =>
      cases hrun
      simp [Left, parserCreate] at hleft
  | cons d pre =>
      obtain rfl : d = c := (List.cons_prefix_cons.mp hpre).1
      obtain ⟨u, hu, hrun⟩ := run_cons_eq_ok hrun
      have hstep := (byteStep_of_appendByte invariant_parserCreate hu).2
      have hfirst : InFirstLine u := by
        rw [hstep.eq_of_inText (Or.inl rfl) hc]
        exact ⟨Or.inl rfl, d, [], rfl, hc⟩
      have hinv := invariant_appendByte d _ u invariant_parserCreate hu
      obtain ⟨-, hset | hfirst'⟩ := run_invariant hkeep ⟨hinv, Or.inr hfirst⟩ hrun
      · exact hset
      · exact absurd hleft hfirst'.not_left

/-- An empty line alone gives a complete message whose `p2` is null. -/
theorem not_startLineBeforeEnd_crlf :
    (httpcParserParse none [cr, lf]).toOption.map
        (fun r => (r.1.pd.state, r.1.msg.startLine.p2)) = some (.complete, none) ∧
      ¬ StartLineBeforeEnd [cr, lf] := by
  refine ⟨by decide +kernel, fun h => ?_⟩
  have hrun : ∃ s, run appendByte parserCreate [cr, lf] = .ok s ∧ s.pd.state = .complete ∧
      ¬ StartLineSet s.msg :=
    ⟨⟨httpcMessageCreate, ⟨[cr, lf], 128, .complete, .startline⟩⟩, by decide +kernel⟩
  obtain ⟨s, hs, hdone, hunset⟩ := hrun
  exact hunset (h s (reachedOn_iff.mpr ⟨_, List.prefix_rfl, hs⟩) (Or.inr hdone))

/-! ## The start line is written once -/

/-- The line that is being collected would go to `parseStartLine`. -/
def CollectsStartLine (s : Parser) : Prop :=
  s.pd.state = .startline ∨
    (s.pd.state = .crlf ∨ s.pd.state = .lsw) ∧ s.pd.lastState = .startline

/-- A start line, once stored, is not changed by later bytes of the stream, and
no later line is collected as a start line. -/
def WrittenOnce (data : List UInt8) : Prop :=
  ∀ s t, Continues data s t → StartLineSet s.msg →
    t.msg.startLine = s.msg.startLine ∧ ¬ CollectsStartLine t

/-- A CR that arrives right behind the start line, where `last_state` still
names it, is followed by an LF. -/
def CrEndsLine (c : UInt8) (s : Parser) : Prop :=
  StartLineSet s.msg → s.pd.state = .cr → s.pd.lastState = .startline → c = lf

/-- Nothing that may follow goes to `parseStartLine`: a `last_state` that still
names the start line is left only while the CR of an empty line is pending. -/
structure PastStartLine (s : Parser) : Prop where
  notText : s.pd.state ≠ .startline
  notEnded : s.pd.state = .crlf ∨ s.pd.state = .lsw → s.pd.lastState ≠ .startline
  pendingCr : s.pd.state = .cr → s.pd.lastState = .startline → s.pd.linedata = [cr]

theorem PastStartLine.not_collects {s : Parser} (h : PastStartLine s) :
    ¬ CollectsStartLine s := by
  rintro (hs | ⟨hs, hlast⟩)
  · exact h.notText hs
  · exact h.notEnded hs hlast

theorem PastStartLine.of_headers {s : Parser} (hstate : s.pd.state = .headers) :
    PastStartLine s where
  notText := by simp [hstate]
  notEnded := by simp [hstate]
  pendingCr := by simp [hstate]

theorem PastStartLine.of_left {s : Parser} (hleft : Left s) : PastStartLine s := by
  rcases hleft with h | h
  · exact ⟨by simp [h], by simp [h], by simp [h]⟩
  · exact ⟨by simp [h], by simp [h], by simp [h]⟩

/-- The step that sets the start line leads past it. -/
theorem pastStartLine_of_set {c : UInt8} {s t : Parser} (hstep : ByteStep c s t)
    (hstate : s.pd.state = .crlf) (hset : ¬ StartLineSet s.msg) (hset' : StartLineSet t.msg) :
    PastStartLine t := by
  cases hstep with
  | nextLine _ hc hok =>
      split_ifs with hcr
      · exact ⟨by simp, by simp, by simp [hcr]⟩
      · exact .of_headers rfl
  | fold => exact absurd hset' hset
  | _ => simp_all

theorem pastStartLine_byteStep {c : UInt8} {s t : Parser} (hinv : Invariant s)
    (h : PastStartLine s) (hset : StartLineSet s.msg) (hcr : CrEndsLine c s)
    (hstep : ByteStep c s t) : PastStartLine t := by
  cases hstep with
  | text hstate hc => exact .of_headers (hstate.resolve_left h.notText)
  | textCr hstate hc =>
      have hheaders := hstate.resolve_left h.notText
      exact ⟨by simp, by simp, by simp [hheaders]⟩
  | lineEnd hstate hc hblank =>
      have hlast : s.pd.lastState ≠ .startline := by
        intro hlast
        rw [h.pendingCr hstate hlast] at hblank
        exact hblank rfl
      exact ⟨by simp, fun _ => hlast, by simp⟩
  | blankLine hstate hc hblank =>
      apply PastStartLine.of_left
      split_ifs
      · exact Or.inl rfl
      · exact Or.inr rfl
  | strayCr hstate hc =>
      have hlast : s.pd.lastState ≠ .startline := fun hlast => hc (hcr hset hstate hlast)
      exact .of_headers ((hinv.lastState (Or.inl hstate)).resolve_left hlast)
  | fold hstate hc r hr => exact ⟨by simp, fun _ => h.notEnded (Or.inl hstate), by simp⟩
  | nextLine hstate hc hok =>
      split_ifs with hcr'
      · exact ⟨by simp, by simp, by simp [hcr']⟩
      · exact .of_headers rfl
  | foldBlank hstate hc => exact h
  | foldText hstate hc =>
      have hlast := h.notEnded (Or.inr hstate)
      exact .of_headers ((hinv.lastState (Or.inr (Or.inr hstate))).resolve_left hlast)
  | body hstate hlen => exact .of_left (Or.inl hstate)
  | bodyEnd hstate hlen => exact .of_left (Or.inr rfl)
  | complete hstate => exact h

/-- What the invariant of a run says when every CR behind the start line ends a
line. -/
structure OnePerRun (s : Parser) : Prop where
  inv : Invariant s
  past : StartLineSet s.msg → PastStartLine s

theorem onePerRun_appendByte (c : UInt8) (s t : Parser) (h : OnePerRun s)
    (hcr : CrEndsLine c s) (ht : appendByte c s = .ok t) : OnePerRun t := by
  have hstep := (byteStep_of_appendByte h.inv ht).2
  refine ⟨invariant_appendByte c s t h.inv ht, fun hset' => ?_⟩
  by_cases hset : StartLineSet s.msg
  · exact pastStartLine_byteStep h.inv (h.past hset) hset hcr hstep
  · rcases startLine_byteStep hstep with heq | ⟨hstate, -, -⟩
    · exact absurd (by rwa [StartLineSet, heq] at hset') hset
    · exact pastStartLine_of_set hstep hstate hset hset'

theorem startLine_appendByte {c : UInt8} {s t : Parser} (h : OnePerRun s)
    (hset : StartLineSet s.msg) (ht : appendByte c s = .ok t) :
    t.msg.startLine = s.msg.startLine := by
  rcases startLine_byteStep (byteStep_of_appendByte h.inv ht).2 with heq | ⟨hstate, hlast, -⟩
  · exact heq
  · exact absurd hlast ((h.past hset).notEnded (Or.inl hstate))

/-- The start line is written once in the streams in which a CR right behind it
is always followed by an LF, and in no others. -/
theorem writtenOnce_iff (data : List UInt8) :
    WrittenOnce data ↔ Along appendByte (fun c s _ => CrEndsLine c s) parserCreate data := by
  constructor
  · intro honce pre c post s t hdata hs ht hset hstate hlast
    by_contra hc
    have hcont : Continues data s t := by
      refine continues_iff.mpr ⟨pre, [c], ⟨post, by simp [hdata]⟩, hs, ?_⟩
      rw [run_cons_ok ht, run_nil]
    have hinv := invariant_run invariant_parserCreate hs
    apply (honce s t hcont hset).2
    left
    cases (byteStep_of_appendByte hinv ht).2 with
    | strayCr hstate' hc' => exact hlast
    | lineEnd hstate' hc' hblank => exact absurd hc' hc
    | blankLine hstate' hc' hblank => exact absurd hc' hc
    | _ => simp_all
  · intro hall s t hcont hset
    obtain ⟨pre, post, ⟨rest, hdata⟩, hs, ht⟩ := continues_iff.mp hcont
    rw [← hdata] at hall
    have hstart : OnePerRun parserCreate :=
      ⟨invariant_parserCreate, by simp [StartLineSet, parserCreate, httpcMessageCreate]⟩
    have hone := run_invariant_along onePerRun_appendByte hstart hall.left.left hs
    have hkeep : ∀ c u v, (OnePerRun u ∧ StartLineSet u.msg ∧
        u.msg.startLine = s.msg.startLine) → CrEndsLine c u → appendByte c u = .ok v →
        OnePerRun v ∧ StartLineSet v.msg ∧ v.msg.startLine = s.msg.startLine := by
      rintro c u v ⟨hu, huset, heq⟩ hC hv
      refine ⟨onePerRun_appendByte c u v hu hC hv, ?_, ?_⟩
      · exact startLineSet_byteStep huset (byteStep_of_appendByte hu.inv hv).2
      · exact (startLine_appendByte hu huset hv).trans heq
    obtain ⟨hone', hset', heq⟩ :=
      run_invariant_along hkeep ⟨hone, hset, rfl⟩ (hall.left.right hs) ht
    exact ⟨heq, (hone'.past hset').not_collects⟩

/-- A first line, and a CR that does not end an empty line. -/
def strayCrFront : List UInt8 := bytes ['G', ' ', '/', ' ', 'H'] ++ [cr, lf, cr]

/-- A further line after that CR. -/
def strayCrLine : List UInt8 := bytes ['X', ' ', 'Y', ' ', 'Z'] ++ [cr, lf] ++ bytes ['A']

/-- The line behind the stray CR replaces the start line. -/
theorem not_writtenOnce_strayCr :
    (∃ s t, run appendByte parserCreate strayCrFront = .ok s ∧
      run appendByte s strayCrLine = .ok t ∧
      s.msg.startLine.p2.map Subtype.val = some (bytes ['/']) ∧
      t.msg.startLine.p2.map Subtype.val = some (bytes ['X'])) ∧
    ¬ WrittenOnce (strayCrFront ++ strayCrLine) := by
  have hrun : ∃ s t, run appendByte parserCreate strayCrFront = .ok s ∧
      run appendByte s strayCrLine = .ok t ∧
      s.msg.startLine.p2.map Subtype.val = some (bytes ['/']) ∧
      t.msg.startLine.p2.map Subtype.val = some (bytes ['X']) ∧ StartLineSet s.msg :=
    ⟨(run appendByte parserCreate strayCrFront).toOption.getD parserCreate,
      (run appendByte parserCreate (strayCrFront ++ strayCrLine)).toOption.getD parserCreate,
      by decide +kernel⟩
  obtain ⟨s, t, hs, ht, hp, hp', hset⟩ := hrun
  refine ⟨⟨s, t, hs, ht, hp, hp'⟩, fun honce => ?_⟩
  have hcont : Continues (strayCrFront ++ strayCrLine) s t :=
    continues_iff.mpr ⟨_, _, List.prefix_rfl, hs, ht⟩
  rw [(honce s t hcont hset).1, hp] at hp'
  exact absurd hp' (by decide +kernel)

end LibSimple.Http
