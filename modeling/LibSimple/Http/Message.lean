import LibSimple.Support.CLang

/-!
# HTTP messages

The message of `httpparser.h` with the functions of `httpc.c` that build and
query it.  The intrusive header list is a `List` whose head is the node after
the list head, so `list_add` puts a header in front; `header_cnt` is an `int` of
its own; `bodylen` is the length of `body`, which every function that changes one
keeps in step with the other.
-/

namespace LibSimple.Http

open CLang

/-- The three texts of a start line; `none` is a null pointer. -/
structure StartLine where
  p1 : Option CStr
  p2 : Option CStr
  p3 : Option CStr
  deriving DecidableEq

structure HttpHeader where
  key : CStr
  value : CStr
  deriving DecidableEq

structure HttpMessage where
  startLine : StartLine
  headers : List HttpHeader
  headerCnt : ℤ
  body : List UInt8
  deriving DecidableEq

def HttpMessage.bodylen (msg : HttpMessage) : ℕ := msg.body.length

/-- `httpc_Message_create` -/
def httpcMessageCreate : HttpMessage where
  startLine := ⟨none, none, none⟩
  headers := []
  headerCnt := 0
  body := []

/-- `httpc_Message_setStartLine` with three texts -/
def httpcMessageSetStartLine (msg : HttpMessage) (p1 p2 p3 : CStr) : HttpMessage :=
  { msg with startLine := ⟨some p1, some p2, some p3⟩ }

/-- `httpc_Message_setValue`: a new key/value pair in front of the list. -/
def httpcMessageSetValue (msg : HttpMessage) (key value : CStr) : HttpMessage :=
  { msg with headers := ⟨key, value⟩ :: msg.headers, headerCnt := addInt msg.headerCnt 1 }

/-- `httpc_Message_getValue`: the value of the first header whose key matches,
`none` for a null value and result 0. -/
def httpcMessageGetValue (msg : HttpMessage) (key : CStr) : Option CStr :=
  (msg.headers.find? fun h => CStr.eqIgnoreCase h.key key).map HttpHeader.value

/-- `httpc_Message_delValue`: every header whose key matches is taken out;
`header_cnt` stays. -/
def httpcMessageDelValue (msg : HttpMessage) (key : CStr) : HttpMessage :=
  { msg with headers := msg.headers.filter fun h => !CStr.eqIgnoreCase h.key key }

/-- The key `"Content-Length"`. -/
def contentLength : CStr :=
  ⟨bytes ['C', 'o', 'n', 't', 'e', 'n', 't', '-', 'L', 'e', 'n', 'g', 't', 'h'], by decide⟩

/-- `_getmsglen` -/
def getmsglen (msg : HttpMessage) : ℤ :=
  match httpcMessageGetValue msg contentLength with
  | some v => atoi v
  | none => 0

@[simp] theorem bodylen_create : httpcMessageCreate.bodylen = 0 := rfl

@[simp] theorem getValue_with_body (msg : HttpMessage) (body : List UInt8) (key : CStr) :
    httpcMessageGetValue { msg with body := body } key = httpcMessageGetValue msg key := rfl

@[simp] theorem getmsglen_with_body (msg : HttpMessage) (body : List UInt8) :
    getmsglen { msg with body := body } = getmsglen msg := rfl

theorem getValue_of_getmsglen_pos {msg : HttpMessage} (h : 0 < getmsglen msg) :
    ∃ v, httpcMessageGetValue msg contentLength = some v ∧ atoi v = getmsglen msg := by
  unfold getmsglen at h ⊢
  cases hv : httpcMessageGetValue msg contentLength with
  | none => simp [hv] at h
  | some v => exact ⟨v, rfl, rfl⟩

end LibSimple.Http
