import LibSimple.Http.Chunking

/-!
# The end of the header phase

The parser should leave the header phase at the first empty line, that is at
the first CR LF CR LF of the stream.  It remembers a single pending CR, and
`HTTP_CR` and `HTTP_LSW` hand a CR back as text, so whether it does depends on
the state in which the four bytes arrive.
-/

namespace LibSimple.Http

open CLang Runs

/-! ## Empty lines of a stream -/

/-- An empty line ends after `n` bytes. -/
def BlankLineAt (data : List UInt8) (n : ℕ) : Prop :=
  n ≤ data.length ∧ [cr, lf, cr, lf] <:+ data.take n

instance (data : List UInt8) (n : ℕ) : Decidable (BlankLineAt data n) :=
  inferInstanceAs (Decidable (_ ∧ _))

/-- The first CR LF CR LF of the stream ends after `n` bytes. -/
def FirstBlankLine (data : List UInt8) (n : ℕ) : Prop :=
  BlankLineAt data n ∧ ∀ k < n, ¬ BlankLineAt data k

instance (data : List UInt8) (n : ℕ) : Decidable (FirstBlankLine data n) :=
  inferInstanceAs (Decidable (_ ∧ _))

/-- The state is past the header phase. -/
def Left (s : Parser) : Prop := s.pd.state = .body ∨ s.pd.state = .complete

/-- A call on these bytes ends past the header phase. -/
def LeavesHeaders (data : List UInt8) : Prop :=
  ∃ s used, httpcParserParse none data = .ok (s, used) ∧ Left s

/-- The header phase ends at the first empty line, and not before it. -/
def LeavesAtBlankLine (data : List UInt8) : Prop :=
  ∀ n, FirstBlankLine data n →
    LeavesHeaders (data.take n) ∧ ∀ k < n, ¬ LeavesHeaders (data.take k)

/-- The states in which CR LF CR LF ends the header phase with its last byte:
either the first CR LF ends a line of text, or a CR is pending already and the
line buffer starts with the CR LF that the final test looks for. -/
def ReadyForBlankLine (s : Parser) : Prop :=
  ((s.pd.state = .startline ∨ s.pd.state = .headers) ∧
      (s.pd.linedata ++ [cr, lf]).take 2 ≠ [cr, lf]) ∨
    (s.pd.state = .cr ∧ s.pd.linedata.take 2 = [cr, lf])

theorem httpcParserParse_isOk_iff {data : List UInt8} :
    (httpcParserParse none data).isOk ↔ ∃ s, run appendByte parserCreate data = .ok s := by
  rw [httpcParserParse_none, ← appendBytes_fst]
  cases appendBytes parserCreate data with
  | error f => simp [Except.isOk, Except.toBool]
  | ok r => simp [Except.isOk, Except.toBool]

theorem leavesHeaders_iff {data : List UInt8} {s : Parser}
    (h : run appendByte parserCreate data = .ok s) : LeavesHeaders data ↔ Left s := by
  rw [LeavesHeaders, httpcParserParse_none]
  constructor
  · rintro ⟨t, used, ht, hleft⟩
    rw [run_of_appendBytes ht, Except.ok.injEq] at h
    exact h ▸ hleft
  · intro hleft
    obtain ⟨used, hused⟩ := appendBytes_of_run h
    exact ⟨s, used, hused, hleft⟩

/-! ## Facts about single steps -/

theorem left_appendByte (c : UInt8) (s t : Parser) (hs : Left s)
    (h : appendByte c s = .ok t) : Left t := by
  rcases hs with hstate | hstate
  · rw [appendByte_body hstate, Except.ok.injEq] at h
    subst h
    rw [bodyStored]
    split_ifs with hdone
    · exact Or.inr rfl
    · exact Or.inl hstate
  · simp only [appendByte, hstate, Except.ok.injEq] at h
    exact h ▸ Or.inr hstate

/-- The header phase is never entered again. -/
theorem left_run {s t : Parser} {data : List UInt8} (hs : Left s)
    (h : run appendByte s data = .ok t) : Left t :=
  run_invariant left_appendByte hs h

/-- A line that has been ended is not empty, and neither is what a fold leaves
of it. -/
structure LineNotBlank (s : Parser) : Prop where
  ended : s.pd.state = .crlf ∨ s.pd.state = .lsw → s.pd.linedata.take 2 ≠ [cr, lf]
  folded : s.pd.state = .lsw → s.pd.linedata ≠ []

theorem LineNotBlank.of_state {s : Parser} (hcrlf : s.pd.state ≠ .crlf)
    (hlsw : s.pd.state ≠ .lsw) : LineNotBlank s where
  ended h := absurd h (not_or.mpr ⟨hcrlf, hlsw⟩)
  folded h := absurd h hlsw

/-- Cutting a line at a CR LF leaves it non-empty and not starting with CR LF,
when the line itself does not start with CR LF. -/
theorem truncateAt_notBlank {line : List UInt8} {r : Option ℕ} (hne : line ≠ [])
    (hline : line.take 2 ≠ [cr, lf]) (hr : strstrPair cr lf line = some r) :
    (truncateAt line r).take 2 ≠ [cr, lf] ∧ truncateAt line r ≠ [] := by
  cases r with
  | none => exact ⟨hline, hne⟩
  | some i =>
      obtain ⟨rest, hrest⟩ := strstrPair_match hr
      cases i with
      | zero =>
          rw [List.drop_zero] at hrest
          rw [← hrest] at hline
          exact absurd rfl hline
      | succ i =>
          refine ⟨?_, ?_⟩
          · intro h
            apply hline
            rw [truncateAt, List.take_take] at h
            have hlen := congrArg List.length h
            rw [List.length_take, List.length_cons, List.length_singleton] at hlen
            rwa [show min 2 (i + 1) = 2 by omega] at h
          · rw [truncateAt]
            simpa using hne

theorem lineNotBlank_byteStep {c : UInt8} {s t : Parser} (hinv : Invariant s)
    (h : LineNotBlank s) (hstep : ByteStep c s t) : LineNotBlank t := by
  have htext : ∀ u : Parser, u.pd.state = .startline ∨ u.pd.state = .headers →
      LineNotBlank u := by
    rintro u (hu | hu) <;> exact .of_state (by simp [hu]) (by simp [hu])
  cases hstep with
  | text hstate hc => exact htext _ hstate
  | textCr hstate hc => exact .of_state (by simp) (by simp)
  | lineEnd hstate hc hline =>
      subst hc
      exact ⟨fun _ => hline, by simp⟩
  | blankLine hstate hc hline =>
      split_ifs with hlen
      · exact .of_state (by simp) (by simp)
      · exact .of_state (by simp) (by simp)
  | strayCr hstate hc => exact htext _ (hinv.lastState (Or.inl hstate))
  | fold hstate hc r hr =>
      have hne : s.pd.linedata ≠ [] := by
        intro hnil
        simpa [hnil] using hinv.crlf hstate
      obtain ⟨htake, hnonempty⟩ := truncateAt_notBlank hne (h.ended (Or.inl hstate)) hr
      exact ⟨fun _ => htake, fun _ => hnonempty⟩
  | nextLine hstate hc hline =>
      split_ifs with hcr
      · exact .of_state (by simp) (by simp)
      · exact htext _ (Or.inr rfl)
  | foldBlank hstate hc => exact h
  | foldText hstate hc => exact htext _ (hinv.lastState (Or.inr (Or.inr hstate)))
  | body hstate hlen => exact .of_state (by simp [hstate]) (by simp [hstate])
  | bodyEnd hstate hlen => exact .of_state (by simp) (by simp)
  | complete hstate => exact h

theorem lineNotBlank_run {s : Parser} {data : List UInt8}
    (h : run appendByte parserCreate data = .ok s) : LineNotBlank s := by
  have hboth : Invariant s ∧ LineNotBlank s := by
    refine run_invariant (P := fun s => Invariant s ∧ LineNotBlank s) ?_
      ⟨invariant_parserCreate, .of_state (by decide) (by decide)⟩ h
    rintro c s t ⟨hinv, hline⟩ hstep
    exact ⟨invariant_appendByte c s t hinv hstep,
      lineNotBlank_byteStep hinv hline (byteStep_of_appendByte hinv hstep).2⟩
  exact hboth.2

/-! ## The four bytes of an empty line -/

theorem byteStep_cr_of_inText {s t : Parser} (hs : InText s) (h : ByteStep cr s t) :
    t.pd.state = .cr ∧ t.pd.linedata = s.pd.linedata ++ [cr] := by
  rw [h.eq_of_inText_cr hs]
  exact ⟨rfl, rfl⟩

theorem byteStep_lf_of_inText {s t : Parser} (hs : InText s) (h : ByteStep lf s t) :
    InText t ∧ t.pd.linedata = s.pd.linedata ++ [lf] := by
  rw [h.eq_of_inText hs (by decide)]
  exact ⟨hs, rfl⟩

/-- After a pending CR an LF ends the line, or the header phase when the buffer
starts with CR LF. -/
theorem byteStep_lf_of_cr {s t : Parser} (hs : s.pd.state = .cr) (h : ByteStep lf s t) :
    (Left t ↔ (s.pd.linedata ++ [lf]).take 2 = [cr, lf]) ∧ (¬ Left t → t.pd.state = .crlf) := by
  rw [h.eq_of_cr_lf hs]
  by_cases hline : (s.pd.linedata ++ [lf]).take 2 = [cr, lf]
  · rw [if_pos hline]
    split_ifs with hlen <;> simp [Left, hline]
  · rw [if_neg hline]
    simp [Left, hline]

/-- In `HTTP_CR` and in `HTTP_LSW` a CR is taken as text. -/
theorem byteStep_cr_of_cr_or_lsw {s t : Parser} (hinv : Invariant s)
    (hs : s.pd.state = .cr ∨ s.pd.state = .lsw) (h : ByteStep cr s t) :
    InText t ∧ t.pd.linedata = s.pd.linedata ++ [cr] := by
  cases h with
  | strayCr hstate hc => exact ⟨hinv.lastState (Or.inl hstate), rfl⟩
  | foldText hstate hc => exact ⟨hinv.lastState (Or.inr (Or.inr hstate)), rfl⟩
  | lineEnd hstate hc => exact absurd hc (by decide)
  | blankLine hstate hc => exact absurd hc (by decide)
  | foldBlank hstate hc => exact absurd hc (by decide)
  | _ => rcases hs with hs | hs <;> simp_all

theorem byteStep_cr_of_crlf {s t : Parser} (hs : s.pd.state = .crlf) (h : ByteStep cr s t) :
    t.pd.state = .cr ∧ t.pd.linedata = [cr] := by
  rw [h.eq_of_crlf hs (by decide)]
  exact ⟨rfl, rfl⟩

theorem take_two_append {line rest : List UInt8} (hline : line ≠ []) :
    (line ++ cr :: rest).take 2 = [cr, lf] ↔ line.take 2 = [cr, lf] := by
  cases line with
  | nil => exact absurd rfl hline
  | cons c line =>
      cases line with
      | nil => simp [show cr ≠ lf from by decide]
      | cons d line => simp

/-- The four bytes of an empty line end the header phase with the last of them
exactly in the states that are ready for it. -/
theorem left_iff_ready {s s1 s2 s3 t : Parser} (hinv : Invariant s) (hline : LineNotBlank s)
    (h1 : appendByte cr s = .ok s1) (h2 : appendByte lf s1 = .ok s2)
    (h3 : appendByte cr s2 = .ok s3) (h4 : appendByte lf s3 = .ok t) :
    (Left t ∧ ¬ Left s3) ↔ ReadyForBlankLine s := by
  have hinv1 := invariant_appendByte cr s s1 hinv h1
  have hinv2 := invariant_appendByte lf s1 s2 hinv1 h2
  have hinv3 := invariant_appendByte cr s2 s3 hinv2 h3
  have hstep1 := (byteStep_of_appendByte hinv h1).2
  have hstep2 := (byteStep_of_appendByte hinv1 h2).2
  have hstep3 := (byteStep_of_appendByte hinv2 h3).2
  have hstep4 := (byteStep_of_appendByte hinv3 h4).2
  -- once the first CR has become text, only the second CR LF is seen
  have htext : InText s1 → s1.pd.linedata = s.pd.linedata ++ [cr] →
      ((Left t ∧ ¬ Left s3) ↔ (s.pd.linedata ++ [cr, lf, cr, lf]).take 2 = [cr, lf]) := by
    intro hs1 hd1
    obtain ⟨hs2, hd2⟩ := byteStep_lf_of_inText hs1 hstep2
    obtain ⟨hs3, hd3⟩ := byteStep_cr_of_inText hs2 hstep3
    obtain ⟨hleft, -⟩ := byteStep_lf_of_cr hs3 hstep4
    rw [hd3, hd2, hd1] at hleft
    simp only [List.append_assoc, List.cons_append, List.nil_append] at hleft
    rw [hleft]
    simp [Left, hs3]
  have hnotReady : ∀ {state}, s.pd.state = state → state ≠ .startline → state ≠ .headers →
      state ≠ .cr → ¬ ReadyForBlankLine s := by
    rintro state rfl hstart hheaders hcr hready
    rcases hready with ⟨hs | hs, -⟩ | ⟨hs, -⟩
    · exact hstart hs
    · exact hheaders hs
    · exact hcr hs
  have hearly : Left s2 → ¬ (Left t ∧ ¬ Left s3) :=
    fun hs2 h => h.2 (left_appendByte cr s2 s3 hs2 h3)
  have hphase : InText s → ((Left t ∧ ¬ Left s3) ↔ ReadyForBlankLine s) := by
    intro hs
    obtain ⟨hs1, hd1⟩ := byteStep_cr_of_inText hs hstep1
    obtain ⟨hleft2, hcrlf2⟩ := byteStep_lf_of_cr hs1 hstep2
    rw [hd1, List.append_assoc, List.singleton_append] at hleft2
    have hready : ReadyForBlankLine s ↔ ¬ Left s2 := by
      have hncr : s.pd.state ≠ .cr := by
        rcases hs with h | h <;> simp [h]
      rw [hleft2, ReadyForBlankLine]
      simp [hncr, show s.pd.state = .startline ∨ s.pd.state = .headers from hs]
    rw [hready]
    constructor
    · exact fun h hs2 => hearly hs2 h
    · intro hs2
      obtain ⟨hs3, hd3⟩ := byteStep_cr_of_crlf (hcrlf2 hs2) hstep3
      obtain ⟨hleft, -⟩ := byteStep_lf_of_cr hs3 hstep4
      rw [hd3] at hleft
      exact ⟨hleft.mpr rfl, by simp [Left, hs3]⟩
  cases hstate : s.pd.state with
  | unknown => exact absurd hstate hinv.known
  | startline => exact hphase (Or.inl hstate)
  | headers => exact hphase (Or.inr hstate)
  | cr =>
      obtain ⟨hs1, hd1⟩ := byteStep_cr_of_cr_or_lsw hinv (Or.inl hstate) hstep1
      obtain ⟨pre, hpre⟩ := List.getLast?_eq_some_iff.mp (hinv.cr hstate)
      rw [htext hs1 hd1, take_two_append (by simp [hpre]), ReadyForBlankLine]
      simp [hstate]
  | crlf =>
      obtain ⟨hs1, hd1⟩ := byteStep_cr_of_crlf hstate hstep1
      obtain ⟨hleft2, -⟩ := byteStep_lf_of_cr hs1 hstep2
      rw [hd1] at hleft2
      exact iff_of_false (hearly (hleft2.mpr rfl))
        (hnotReady hstate (by decide) (by decide) (by decide))
  | lsw =>
      obtain ⟨hs1, hd1⟩ := byteStep_cr_of_cr_or_lsw hinv (Or.inr hstate) hstep1
      rw [htext hs1 hd1, take_two_append (hline.folded hstate)]
      exact iff_of_false (hline.ended (Or.inr hstate))
        (hnotReady hstate (by decide) (by decide) (by decide))
  | body =>
      have hleft : Left s := Or.inl hstate
      exact iff_of_false (hearly (left_appendByte lf s1 s2 (left_appendByte cr s s1 hleft h1) h2))
        (hnotReady hstate (by decide) (by decide) (by decide))
  | complete =>
      have hleft : Left s := Or.inr hstate
      exact iff_of_false (hearly (left_appendByte lf s1 s2 (left_appendByte cr s s1 hleft h1) h2))
        (hnotReady hstate (by decide) (by decide) (by decide))

/-! ## The first empty line -/

/-- Before its last byte an empty line has been preceded by three others. -/
theorem BlankLineAt.split {data : List UInt8} {n : ℕ} (h : BlankLineAt data n) :
    4 ≤ n ∧ data.take n = data.take (n - 4) ++ [cr, lf, cr, lf] := by
  obtain ⟨hn, pre, hpre⟩ := h
  have hlen := congrArg List.length hpre
  rw [List.length_append, List.length_take, min_eq_left hn] at hlen
  have hpreLen : pre.length = n - 4 := by
    simp only [List.length_cons, List.length_nil] at hlen
    omega
  have htake : data.take (n - 4) = pre := by
    have h4 : data.take (n - 4) = (data.take n).take (n - 4) := by
      rw [List.take_take, min_eq_left (Nat.sub_le n 4)]
    rw [h4, ← hpre, ← hpreLen, List.take_left]
  refine ⟨?_, by rw [htake, hpre]⟩
  simp only [List.length_cons, List.length_nil] at hlen
  omega

theorem leaves_at_iff {data : List UInt8} {n : ℕ} {t : Parser} (hblank : BlankLineAt data n)
    (hok : run appendByte parserCreate data = .ok t) :
    (LeavesHeaders (data.take n) ∧ ∀ k < n, ¬ LeavesHeaders (data.take k)) ↔
      ∀ s, run appendByte parserCreate (data.take (n - 4)) = .ok s → ReadyForBlankLine s := by
  have hfront : ∀ k, ∃ u, run appendByte parserCreate (data.take k) = .ok u := by
    intro k
    rw [← List.take_append_drop k data] at hok
    obtain ⟨u, hu, -⟩ := run_append_eq_ok hok
    exact ⟨u, hu⟩
  obtain ⟨hn, hsplit⟩ := hblank.split
  obtain ⟨s, hs⟩ := hfront (n - 4)
  obtain ⟨u, hu⟩ := hfront n
  have hfour : run appendByte s [cr, lf, cr, lf] = .ok u := by
    rw [← run_append_ok hs, ← hsplit, hu]
  obtain ⟨s1, h1, hrest⟩ := run_cons_eq_ok hfour
  obtain ⟨s2, h2, hrest⟩ := run_cons_eq_ok hrest
  obtain ⟨s3, h3, hrest⟩ := run_cons_eq_ok hrest
  obtain ⟨s4, h4, hrest⟩ := run_cons_eq_ok hrest
  obtain rfl : s4 = u := Except.ok.inj hrest
  have hlast : run appendByte parserCreate (data.take (n - 1)) = .ok s3 := by
    have htake : data.take (n - 1) = data.take (n - 4) ++ [cr, lf, cr] := by
      have hpred : data.take (n - 1) = (data.take n).take (n - 1) := by
        rw [List.take_take, min_eq_left (Nat.sub_le n 1)]
      have hlen : (data.take (n - 4)).length = n - 4 := by
        rw [List.length_take]
        have := hblank.1
        omega
      rw [hpred, hsplit, show n - 1 = (data.take (n - 4)).length + 3 by omega,
        List.take_length_add_append]
      rfl
    rw [htake, run_append_ok hs, run_cons_ok h1, run_cons_ok h2, run_cons_ok h3, run_nil]
  have hready := left_iff_ready (invariant_run invariant_parserCreate hs) (lineNotBlank_run hs)
    h1 h2 h3 h4
  have hforall : (∀ s', run appendByte parserCreate (data.take (n - 4)) = .ok s' →
      ReadyForBlankLine s') ↔ ReadyForBlankLine s := by
    rw [hs]
    simp
  rw [hforall, ← hready, leavesHeaders_iff hu]
  refine and_congr_right fun _ => ?_
  constructor
  · intro h
    rw [← leavesHeaders_iff hlast]
    exact h (n - 1) (by omega)
  · intro h k hk hleft
    obtain ⟨v, hv⟩ := hfront k
    rw [leavesHeaders_iff hv] at hleft
    obtain ⟨more, hmore⟩ := List.take_prefix_take_left (l := data) (show k ≤ n - 1 by omega)
    rw [← hmore, run_append_ok hv] at hlast
    exact h (left_run hleft hlast)

/-- On a stream without line-parsing errors the header phase ends exactly at
the first empty line if and only if the parser is ready for it when its four
bytes begin. -/
theorem leavesAtBlankLine_iff (data : List UInt8)
    (hok : (httpcParserParse none data).isOk) :
    LeavesAtBlankLine data ↔
      ∀ n, FirstBlankLine data n →
        ∀ s, run appendByte parserCreate (data.take (n - 4)) = .ok s → ReadyForBlankLine s := by
  obtain ⟨t, ht⟩ := httpcParserParse_isOk_iff.mp hok
  exact forall_congr' fun n => imp_congr_right fun hn => leaves_at_iff hn.1 ht

/-- A request with a folded header line, whose empty line is seen. -/
theorem leavesAtBlankLine_iff_folded :
    let data := bytes ['G', ' ', '/', ' ', 'H'] ++ [cr, lf] ++ bytes ['A', 'B', ':', ' '] ++
      [cr, lf] ++ bytes [' ', 'x'] ++ [cr, lf, cr, lf]
    LeavesAtBlankLine data ↔
      ∀ n, FirstBlankLine data n →
        ∀ s, run appendByte parserCreate (data.take (n - 4)) = .ok s → ReadyForBlankLine s :=
  leavesAtBlankLine_iff _ (by decide +kernel)

/-- With one CR too many in front of it the empty line is taken for the end of
the start line. -/
theorem not_leavesAtBlankLine_doubledCr :
    let data := bytes ['G', ' ', '/', ' ', 'H'] ++ [cr, cr, lf, cr, lf]
    ¬ [cr, lf] <+: data ∧ (httpcParserParse none data).isOk ∧ ¬ LeavesAtBlankLine data := by
  refine ⟨by decide, by decide +kernel, fun h => ?_⟩
  obtain ⟨⟨s, used, hs, hleft⟩, -⟩ := h 10 (by decide)
  have hstate : (httpcParserParse none (bytes ['G', ' ', '/', ' ', 'H'] ++
      [cr, cr, lf, cr, lf])).map (fun r => r.1.pd.state) = .ok .crlf := by decide +kernel
  have hcrlf : s.pd.state = .crlf := by
    rw [List.take_of_length_le (by decide)] at hs
    rw [hs] at hstate
    exact Except.ok.inj hstate
  simp [Left, hcrlf] at hleft

end LibSimple.Http
