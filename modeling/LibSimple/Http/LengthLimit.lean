import LibSimple.Http.BodyPieces
import LibSimple.Http.StartLine

/-!
# Announced lengths near the limits of `int`

The parser takes a decimal `Content-Length` for the number that `atoi` makes of
it, which saturates at 64 bits and keeps the low 32 bits of that.
-/

namespace LibSimple.Http

open CLang Runs StoreTrace

/-- The bytes are the head of a message, up to and including its empty line, and
`s` is the parser behind them. -/
structure HeadEnds (head : List UInt8) (s : Parser) : Prop where
  parsed : httpcParserParse none head = .ok (s, head.length)
  left : Left s
  first : ∀ k < head.length, ¬ LeavesHeaders (head.take k)

/-- `v` is the only `Content-Length` of the message. -/
def OnlyLength (msg : HttpMessage) (v : CStr) : Prop :=
  (msg.headers.filter fun h => CStr.eqIgnoreCase h.key contentLength).map HttpHeader.value = [v]

/-- However the stream is cut into pieces, the message is complete from the byte
on that is number `n` behind the head; no byte after it is consumed, and the `n`
bytes are its body. -/
def EndsAfter (head : List UInt8) (n : ℕ) : Prop :=
  ∀ pieces body s used, pieces.flatten = head ++ body →
    parsePieces none pieces = .ok (some s, used) →
      (s.pd.state = .complete ↔ n ≤ body.length) ∧
      (s.pd.state = .complete → used = head.length + n ∧ s.msg.body = body.take n)

/-! ## The state behind the head -/

theorem getmsglen_of_onlyLength {msg : HttpMessage} {v : CStr} (h : OnlyLength msg v) :
    getmsglen msg = atoi v := by
  rw [getmsglen, httpcMessageGetValue, ← List.head?_filter, ← List.head?_map, h]
  rfl

/-- Behind the head no byte of the body has been stored. -/
theorem HeadEnds.body_nil {head : List UInt8} {s : Parser} (h : HeadEnds head s) :
    Invariant s ∧ s.msg.body = [] := by
  have hparsed := h.parsed
  rw [httpcParserParse_none] at hparsed
  have hrun := run_of_appendBytes hparsed
  have hinv := invariant_run invariant_parserCreate hrun
  refine ⟨hinv, ?_⟩
  rcases List.eq_nil_or_concat head with rfl | ⟨pre, c, rfl⟩
  · cases hrun
    rfl
  · rw [List.concat_eq_append] at hrun h
    obtain ⟨u, hu, hc⟩ := run_append_eq_ok hrun
    obtain ⟨s', hs', hnil⟩ := run_cons_eq_ok hc
    obtain rfl : s' = s := Except.ok.inj hnil
    have hnot : ¬ Left u := by
      have hfirst := h.first pre.length (by simp)
      rwa [List.take_left, leavesHeaders_iff hu] at hfirst
    have huinv := invariant_run invariant_parserCreate hu
    have hnil' := huinv.header (fun hs => hnot (Or.inl hs)) (fun hs => hnot (Or.inr hs))
    have hstep := (byteStep_of_appendByte huinv hs').2
    rcases (left_byteStep_iff huinv hstep).mp h.left with hleft | ⟨rfl, hstate, -⟩
    · exact absurd hleft hnot
    · rw [hstep.eq_of_cr_lf hstate]
      exact hnil'

/-- Behind the head the parser stops at the length that `atoi` makes of the
header. -/
theorem appendBytes_left {s : Parser} (hinv : Invariant s) (hleft : Left s)
    (hnil : s.msg.body = []) (body : List UInt8) :
    ∃ t used, appendBytes s body = .ok (t, used) ∧
      (t.pd.state = .complete ↔ (getmsglen s.msg).toNat ≤ body.length) ∧
      (t.pd.state = .complete → used = (getmsglen s.msg).toNat ∧
        t.msg.body = body.take (getmsglen s.msg).toNat) := by
  have hzero : s.msg.bodylen = 0 := by rw [HttpMessage.bodylen, hnil, List.length_nil]
  rcases hleft with hstate | hstate
  · have hpos := hinv.body hstate
    rw [hzero] at hpos
    obtain ⟨n, hn⟩ := Int.eq_ofNat_of_zero_le (show 0 ≤ getmsglen s.msg by omega)
    rw [hn, Int.toNat_natCast]
    rw [hn] at hpos
    by_cases hbody : body = []
    · subst hbody
      refine ⟨s, 0, rfl, ?_, fun hdone => absurd hdone (by rw [hstate]; decide)⟩
      rw [hstate]
      exact iff_of_false (by decide) (by simp; omega)
    · have htake : body.take n ≠ [] := by
        rw [Ne, List.take_eq_nil_iff, not_or]
        exact ⟨by omega, hbody⟩
      have hlen : (body.take n).length = min n body.length := List.length_take
      have hchunk := appendBytes_body hstate (body.take n) htake
        (by rw [hzero, hlen, hn]; omega)
      have hstored : (bodyStored s (body.take n)).msg.body = body.take n := by
        rw [bodyStored]
        split_ifs
        · exact congrArg (· ++ body.take n) hnil
        · exact congrArg (· ++ body.take n) hnil
      have hdone : (bodyStored s (body.take n)).pd.state = .complete ↔ n ≤ body.length := by
        rw [bodyStored]
        simp only [hn, hzero, hlen]
        split_ifs with hall
        · exact iff_of_true rfl (by omega)
        · refine iff_of_false ?_ (by omega)
          show s.pd.state ≠ .complete
          rw [hstate]
          decide
      by_cases hall : n ≤ body.length
      · refine ⟨bodyStored s (body.take n), n, ?_, hdone, fun _ => ⟨rfl, hstored⟩⟩
        have hrest := appendBytes_append_ok hchunk
          (appendBytes_of_complete (hdone.mpr hall) (body.drop n))
        rw [List.take_append_drop, hlen, min_eq_left hall] at hrest
        exact hrest
      · rw [List.take_of_length_le (by omega)] at hchunk hdone
        exact ⟨_, _, hchunk, hdone, fun hcomplete => absurd (hdone.mp hcomplete) hall⟩
  · have hmax := hinv.complete hstate
    rw [hzero] at hmax
    have hnone : (getmsglen s.msg).toNat = 0 := by omega
    rw [hnone]
    refine ⟨s, 0, appendBytes_of_complete hstate body, iff_of_true hstate (Nat.zero_le _),
      fun _ => ⟨rfl, hnil⟩⟩

/-- The parser stops where a message announces it in decimal exactly when the
number is an `int`. -/
theorem endsAfter_iff {head : List UInt8} {s : Parser} (hhead : HeadEnds head s) {v : CStr}
    (honly : OnlyLength s.msg v) (hv : IsDecimal v) :
    EndsAfter head (digitsValue v.val) ↔ digitsValue v.val ≤ intMax := by
  obtain ⟨hinv, hnil⟩ := hhead.body_nil
  have hparsed := hhead.parsed
  rw [httpcParserParse_none] at hparsed
  have hstop : ∀ body, ∃ t used, appendBytes parserCreate (head ++ body) =
      .ok (t, head.length + used) ∧
      (t.pd.state = .complete ↔ (atoi v).toNat ≤ body.length) ∧
      (t.pd.state = .complete → used = (atoi v).toNat ∧ t.msg.body = body.take (atoi v).toNat) := by
    intro body
    obtain ⟨t, used, hbody, hdone⟩ := appendBytes_left hinv hhead.left hnil body
    rw [getmsglen_of_onlyLength honly] at hdone
    exact ⟨t, used, appendBytes_append_ok hparsed hbody, hdone⟩
  constructor
  · intro hends
    -- a body that is long enough for either number
    obtain ⟨t, used, ht, hdone, hused⟩ :=
      hstop (List.replicate (max (atoi v).toNat (digitsValue v.val)) 0)
    have hpieces : parsePieces none [head ++
        List.replicate (max (atoi v).toNat (digitsValue v.val)) 0] =
        .ok (some t, head.length + used) := by
      rw [parsePieces_none (List.cons_ne_nil _ _), List.flatten_singleton, ht, map_ok]
    have hcomplete : t.pd.state = .complete := by
      rw [hdone, List.length_replicate]
      exact le_max_left _ _
    have hsame := ((hends _ _ _ _ List.flatten_singleton hpieces).2 hcomplete).1
    rw [(hused hcomplete).1, Nat.add_left_cancel_iff] at hsame
    have hle := atoi_le v
    rw [← hsame, Int.toNat_le]
    exact hle
  · intro hle pieces body t used hpieces hparse
    have hne : pieces ≠ [] := by
      rintro rfl
      cases hparse
    rw [parsePieces_none hne, hpieces] at hparse
    obtain ⟨u, n, hu, hdone, hused⟩ := hstop body
    rw [hu, map_ok, Except.ok.injEq, Prod.mk.injEq, Option.some.injEq] at hparse
    obtain ⟨rfl, rfl⟩ := hparse
    rw [atoi_of_le hv hle, Int.toNat_natCast] at hdone hused
    refine ⟨hdone, fun hcomplete => ⟨?_, (hused hcomplete).2⟩⟩
    rw [(hused hcomplete).1]

/-! ## Messages in the text format -/

/-- The text of a message up to its empty line is the head of a message. -/
theorem headEnds_encodedText {msg : HttpMessage} {p1 p2 p3 : CStr} (h : HeadOk msg p1 p2 p3)
    (hfit : LinesFit msg p1 p2 p3) :
    ∃ s, HeadEnds (encodedText p1 p2 p3 msg.headers []) s ∧ s.msg = collected msg := by
  obtain ⟨u, s, hu, hstate, hparsed, hmsg, hsstate⟩ := appendBytes_head h hfit
  have htext : encodedText p1 p2 p3 msg.headers [] =
      startLineText p1 p2 p3 ++ (msg.headers.flatMap headerText ++ [cr]) ++ [lf] := by
    rw [encodedText_eq_head, List.append_nil]
  refine ⟨s, ⟨?_, ?_, ?_⟩, hmsg⟩
  · rw [httpcParserParse_none, hparsed]
  · rw [Left, hsstate]
    split_ifs
    · exact Or.inl rfl
    · exact Or.inr rfl
  · intro k hk hleft
    rw [htext, List.length_append, List.length_singleton, Nat.lt_succ_iff] at hk
    rw [htext, List.take_append_of_le_length hk] at hleft
    rw [← List.take_append_drop k (startLineText p1 p2 p3 ++ _)] at hu
    obtain ⟨w, hw, hrest⟩ := run_append_eq_ok hu
    have huleft := left_run ((leavesHeaders_iff hw).mp hleft) hrest
    rcases huleft with hbody | hdone
    · rw [hstate] at hbody
      cases hbody
    · rw [hstate] at hdone
      cases hdone

/-- A request that announces `n` bytes and has a further header. -/
def announcingMessage (n : ℕ) : HttpMessage where
  startLine := (pingMessage []).startLine
  headers := ⟨contentLength, decimal n⟩ :: (pingMessage []).headers
  headerCnt := 2
  body := []

/-- The bytes of that request up to its empty line. -/
def announcingHead (n : ℕ) : List UInt8 :=
  encodedText getText rootText versionText (announcingMessage n).headers []

theorem headEnds_announcingHead {n : ℕ}
    (hfit : LinesFit (announcingMessage n) getText rootText versionText)
    (honly : OnlyLength (collected (announcingMessage n)) (decimal n)) :
    ∃ s, HeadEnds (announcingHead n) s ∧ OnlyLength s.msg (decimal n) := by
  have hping := (wellFormed_postMessage.headOk).headers
  have hok : HeadOk (announcingMessage n) getText rootText versionText := by
    refine ⟨rfl, wellFormed_postMessage.startLine, ?_⟩
    exact List.forall_mem_cons.mpr ⟨headerOk_contentLength n, (List.forall_mem_cons.mp hping).2⟩
  obtain ⟨s, hs, hmsg⟩ := headEnds_encodedText hok hfit
  exact ⟨s, hs, by rw [hmsg]; exact honly⟩

theorem endsAfter_iff_five :
    ∃ s, HeadEnds (announcingHead 5) s ∧
      (EndsAfter (announcingHead 5) (digitsValue (decimal 5).val) ↔
        digitsValue (decimal 5).val ≤ intMax) := by
  obtain ⟨s, hs, honly⟩ := @headEnds_announcingHead 5
    ⟨by decide +kernel, by decide +kernel⟩ (by unfold OnlyLength; decide +kernel)
  exact ⟨s, hs, endsAfter_iff hs honly (isDecimal_decimal 5)⟩

/-- A request that announces 2147483648 bytes is complete without any of them. -/
theorem not_endsAfter_wrapped :
    ∃ s, HeadEnds (announcingHead 2147483648) s ∧ OnlyLength s.msg (decimal 2147483648) ∧
      s.pd.state = .complete ∧ ¬ EndsAfter (announcingHead 2147483648) 2147483648 := by
  obtain ⟨s, hs, honly⟩ := @headEnds_announcingHead 2147483648
    ⟨by decide +kernel, by decide +kernel⟩ (by unfold OnlyLength; decide +kernel)
  have hstate : (httpcParserParse none (announcingHead 2147483648)).toOption.map
      (fun r => r.1.pd.state) = some .complete := by decide +kernel
  have hcomplete : s.pd.state = .complete := by
    rw [hs.parsed] at hstate
    exact Option.some.inj hstate
  refine ⟨s, hs, honly, hcomplete, fun hends => ?_⟩
  have hpieces : parsePieces none [announcingHead 2147483648] =
      .ok (some s, (announcingHead 2147483648).length) := by
    simp only [parsePieces, hs.parsed, ok_bind, pure_eq_ok, Nat.add_zero]
  have hused := ((hends _ [] _ _ (by simp) hpieces).2 hcomplete).1
  omega

end LibSimple.Http
