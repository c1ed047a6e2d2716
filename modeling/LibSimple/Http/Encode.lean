import LibSimple.Http.LineParser
import LibSimple.Support.StoreTrace

/-!
# Encoding a message

`httpc_Message_get_encode_length` and `httpc_Message_encode` of `httpc.c`.  The
encoder is embedded as the trace of its stores relative to `buf`, with the
terminators that `sprintf` and `strcpy` store behind their text.
-/

namespace LibSimple.Http

open CLang StoreTrace

/-! ## The two walks over a message -/

/-- `httpc_Message_get_encode_length` -/
def httpcMessageGetEncodeLength (msg : HttpMessage) (withBody : Bool) : ℤ :=
  match msg.startLine with
  | ⟨some p1, some p2, some p3⟩ =>
      let len := addInt 0 (p1.strlen + 1 : ℕ)
      let len := addInt len (p2.strlen + 1 : ℕ)
      let len := addInt len p3.strlen
      let len := addInt len (2 : ℕ)
      let len := msg.headers.foldl (fun len h =>
        addInt (addInt (addInt len (h.key.strlen + 2 : ℕ)) h.value.strlen) (2 : ℕ)) len
      let len := addInt len (2 : ℕ)
      if withBody then addInt len msg.bodylen else len
  | _ => -1

/-- What `"%s %s %s\r\n"` prints. -/
def startLineText (p1 p2 p3 : CStr) : List UInt8 :=
  p1.val ++ 32 :: p2.val ++ 32 :: p3.val ++ [cr, lf]

/-- What `"%s: %s\r\n"` prints. -/
def headerText (h : HttpHeader) : List UInt8 :=
  h.key.val ++ colon :: 32 :: h.value.val ++ [cr, lf]

/-- `p += sprintf(p, …)` for the given text, and also `strcpy(p, …)` with `p`
moved to the end: the terminator is stored at the new `p`. -/
def putString (text : List UInt8) (w : Writer UInt8) : Writer UInt8 :=
  w.put (text ++ [0]) text.length

/-- `httpc_Message_encode`: the trace of its stores, and `none` when it prints
a null pointer. -/
def httpcMessageEncode (msg : HttpMessage) (withBody : Bool) : Option (List (ℕ × UInt8)) :=
  match msg.startLine with
  | ⟨some p1, some p2, some p3⟩ =>
      let w := putString (startLineText p1 p2 p3) ⟨0, []⟩
      let w := msg.headers.foldl (fun w h => putString (headerText h) w) w
      let w := putString [cr, lf] w
      some (if withBody then (w.put msg.body msg.bodylen).trace else w.trace)
  | _ => none

/-- The text of a message: start line, headers in list order, empty line and
body. -/
def encodedText (p1 p2 p3 : CStr) (headers : List HttpHeader) (body : List UInt8) :
    List UInt8 :=
  startLineText p1 p2 p3 ++ headers.flatMap headerText ++ [cr, lf] ++ body

/-- The encoder stores at the indices below the encode length, at all of them
and at no other, and leaves the text of the message there. -/
def EncodesWithinLength (msg : HttpMessage) (withBody : Bool) : Prop :=
  ∃ p1 p2 p3 trace, msg.startLine = ⟨some p1, some p2, some p3⟩ ∧
    httpcMessageEncode msg withBody = some trace ∧
    (∀ i : ℕ, (∃ c, (i, c) ∈ trace) ↔ (i : ℤ) < httpcMessageGetEncodeLength msg withBody) ∧
    ∀ i : ℕ, (i : ℤ) < httpcMessageGetEncodeLength msg withBody →
      contents i trace =
        (encodedText p1 p2 p3 msg.headers (if withBody then msg.body else []))[i]?

/-! ## The length -/

@[simp] theorem length_startLineText (p1 p2 p3 : CStr) :
    (startLineText p1 p2 p3).length = p1.strlen + 1 + (p2.strlen + 1) + p3.strlen + 2 := by
  simp [startLineText, CStr.strlen]
  omega

@[simp] theorem length_headerText (h : HttpHeader) :
    (headerText h).length = h.key.strlen + 2 + h.value.strlen + 2 := by
  simp [headerText, CStr.strlen]
  omega

theorem foldl_addInt {n : ℕ} (headers : List HttpHeader)
    (h : n + (headers.flatMap headerText).length ≤ intMax) :
    headers.foldl (fun len h =>
        addInt (addInt (addInt len (h.key.strlen + 2 : ℕ)) h.value.strlen) (2 : ℕ)) (n : ℤ) =
      ((n + (headers.flatMap headerText).length : ℕ) : ℤ) := by
  induction headers generalizing n with
  | nil => rfl
  | cons header headers ih =>
      rw [List.flatMap_cons, List.length_append, length_headerText] at h
      rw [List.foldl_cons, addInt_natCast (by omega), addInt_natCast (by omega),
        addInt_natCast (by omega), ih (by omega), List.flatMap_cons, List.length_append,
        length_headerText]
      congr 1
      omega

/-- The encode length is the length of the text, when that fits an `int`. -/
theorem getEncodeLength_eq {msg : HttpMessage} {p1 p2 p3 : CStr} (withBody : Bool)
    (hstart : msg.startLine = ⟨some p1, some p2, some p3⟩)
    (hlen : (encodedText p1 p2 p3 msg.headers (if withBody then msg.body else [])).length ≤
      intMax) :
    httpcMessageGetEncodeLength msg withBody =
      ((encodedText p1 p2 p3 msg.headers (if withBody then msg.body else [])).length : ℕ) := by
  simp only [encodedText, List.length_append, length_startLineText, List.length_cons,
    List.length_nil] at hlen ⊢
  rw [httpcMessageGetEncodeLength, hstart, ← Nat.cast_zero]
  simp only []
  rw [addInt_natCast (by omega), addInt_natCast (by omega), addInt_natCast (by omega),
    addInt_natCast (by omega), foldl_addInt _ (by omega), addInt_natCast (by omega)]
  cases withBody with
  | false =>
      simp only [Bool.false_eq_true, if_false, List.length_nil]
      congr 1
      omega
  | true =>
      simp only [if_true] at hlen ⊢
      rw [HttpMessage.bodylen, addInt_natCast (by omega)]
      congr 1
      omega

/-! ## The stores -/

/-- Text printed behind text: the new terminator replaces the old one. -/
theorem holds_putString {w : Writer UInt8} {text rest : List UInt8} (h : w.Holds text rest)
    (hrest : rest.length ≤ 1) (new : List UInt8) :
    (putString new w).Holds (text ++ new) [0] := by
  have hput := h.put new [0]
  rwa [List.drop_eq_nil_of_le (by simp; omega), List.append_nil] at hput

theorem holds_foldl_putString {w : Writer UInt8} {text : List UInt8} (h : w.Holds text [0])
    (headers : List HttpHeader) :
    (headers.foldl (fun w h => putString (headerText h) w) w).Holds
      (text ++ headers.flatMap headerText) [0] := by
  induction headers generalizing w text with
  | nil => simpa using h
  | cons header headers ih =>
      rw [List.foldl_cons, List.flatMap_cons, ← List.append_assoc]
      exact ih (holds_putString h le_rfl (headerText header))

/-- What the encoder leaves in the buffer: the text of the message, and the
terminator of the empty line unless a body byte replaces it. -/
theorem encode_contents {msg : HttpMessage} {p1 p2 p3 : CStr} (withBody : Bool)
    (hstart : msg.startLine = ⟨some p1, some p2, some p3⟩) :
    ∃ trace, httpcMessageEncode msg withBody = some trace ∧
      ∀ i, contents i trace =
        (encodedText p1 p2 p3 msg.headers (if withBody then msg.body else []) ++
          [0].drop (if withBody then msg.body else []).length)[i]? := by
  have hfirst := holds_putString (Writer.holds_start (α := UInt8)) (by simp)
    (startLineText p1 p2 p3)
  have hhead := holds_putString (holds_foldl_putString hfirst msg.headers) le_rfl [cr, lf]
  rw [List.nil_append] at hhead
  rw [httpcMessageEncode, hstart]
  cases withBody with
  | false => exact ⟨_, rfl, fun i => by simpa [encodedText] using hhead.memory i⟩
  | true =>
      have hbody := hhead.put msg.body []
      rw [List.append_nil, List.nil_append] at hbody
      exact ⟨_, rfl, hbody.memory⟩

/-- The encoder stays within the encode length exactly when a body is written:
otherwise the terminator of the empty line is stored behind the last byte. -/
theorem encodesWithinLength_iff {msg : HttpMessage} {p1 p2 p3 : CStr} (withBody : Bool)
    (hstart : msg.startLine = ⟨some p1, some p2, some p3⟩)
    (hlen : (encodedText p1 p2 p3 msg.headers (if withBody then msg.body else [])).length ≤
      intMax) :
    EncodesWithinLength msg withBody ↔ withBody = true ∧ 0 < msg.bodylen := by
  obtain ⟨trace, htrace, hcontents⟩ := encode_contents withBody hstart
  have hlength := getEncodeLength_eq withBody hstart hlen
  have hwritten : (∃ c, ((encodedText p1 p2 p3 msg.headers
      (if withBody then msg.body else [])).length, c) ∈ trace) ↔
        ¬ (withBody = true ∧ 0 < msg.bodylen) := by
    rw [← contents_isSome_iff, hcontents, List.getElem?_append_right le_rfl, Nat.sub_self,
      HttpMessage.bodylen]
    cases withBody with
    | false => simp
    | true => cases msg.body <;> simp
  constructor
  · rintro ⟨q1, q2, q3, trace', -, htrace', hindices, -⟩
    obtain rfl : trace = trace' := Option.some.inj (htrace.symm.trans htrace')
    by_contra hbody
    have hlast := (hindices _).mp (hwritten.mpr hbody)
    rw [hlength] at hlast
    exact lt_irrefl _ hlast
  · intro hbody
    have hdrop : [(0 : UInt8)].drop (if withBody then msg.body else []).length = [] := by
      rw [if_pos hbody.1]
      exact List.drop_eq_nil_of_le hbody.2
    simp only [hdrop, List.append_nil] at hcontents
    refine ⟨p1, p2, p3, trace, hstart, htrace, fun i => ?_, fun i _ => hcontents i⟩
    rw [← contents_isSome_iff, hcontents, hlength, isSome_getElem?]
    simp

def getText : CStr := ⟨bytes ['G', 'E', 'T'], by decide⟩

def rootText : CStr := ⟨bytes ['/'], by decide⟩

def versionText : CStr := ⟨bytes ['H', 'T', 'T', 'P', '/', '1', '.', '0'], by decide⟩

/-- The message that the tests encode into a buffer of the encode length. -/
def pingMessage (body : List UInt8) : HttpMessage where
  startLine := ⟨some getText, some rootText, some versionText⟩
  headers := [⟨⟨bytes ['a', 'g', 'e', 'n', 't'], by decide⟩,
    ⟨bytes ['t', 'e', 's', 't'], by decide⟩⟩]
  headerCnt := 1
  body := body

theorem encodesWithinLength_iff_ping :
    EncodesWithinLength (pingMessage (bytes ['h', 'i'])) true ↔
      true = true ∧ 0 < (pingMessage (bytes ['h', 'i'])).bodylen :=
  encodesWithinLength_iff true rfl (by decide)

/-- Without a body the terminator lands behind the encode length. -/
theorem not_encodesWithinLength_ping : ¬ EncodesWithinLength (pingMessage []) true := by
  rintro ⟨p1, p2, p3, trace, -, htrace, hindices, -⟩
  have hstored : (31, 0) ∈ ((httpcMessageEncode (pingMessage []) true).getD []) := by
    decide +kernel
  have hlength : httpcMessageGetEncodeLength (pingMessage []) true = 31 := by
    decide +kernel
  rw [htrace] at hstored
  have hlast := (hindices 31).mp ⟨0, hstored⟩
  rw [hlength] at hlast
  exact lt_irrefl _ hlast

end LibSimple.Http
