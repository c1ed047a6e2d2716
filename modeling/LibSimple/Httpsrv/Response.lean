import LibSimple.Http.BodyPieces
import LibSimple.Httpsrv.Model

/-!
# The responses of `httpsrv`

What `http_request` puts into the response: `send_local_file` up to the point where
it sends the head, with the type that it finds by the extension of the file's name,
and `ret_404`.
-/

namespace LibSimple.Httpsrv

open CLang PosixRegex Url Http

/-! ## The type of a file -/

/-- `ext_content_type` -/
structure ExtContentType where
  ext : CStr
  type : CStr

/-- An entry of `_types` -/
def entry (ext type : String) : ExtContentType := ⟨.ofString ext, .ofString type⟩

/-- `_types`, without the entry of null pointers that ends it. -/
def types : List ExtContentType :=
  [entry ".txt" "text/plain", entry ".c" "text/plain", entry ".h" "text/plain",
    entry ".cpp" "text/plain", entry ".html" "text/html", entry ".htm" "text/html",
    entry ".ico" "image/x-icon", entry ".jpg" "image/jpeg", entry ".jpeg" "image/jpeg",
    entry ".gif" "image/gif", entry ".mp3" "audio/mp3", entry ".mpeg" "video/mpg",
    entry ".mp4" "video/mpeg", entry ".js" "application/x-javascript",
    entry ".java" "java/*", entry ".png" "image/png", entry ".gz" "application/x-gzip",
    entry ".ppt" "application/mspowerpoint"]

/-- The loop of `get_context_type_from_ext`; `none` when `strcasecmp` gets a null
pointer. -/
def contextTypeLoop (ext : Option CStr) : List ExtContentType → Option CStr
  | [] => some (.ofString "application/octet-stream")
  | et :: rest => do
      let text ← ext
      if CStr.eqIgnoreCase text et.ext then some et.type else contextTypeLoop ext rest

/-- `get_context_type_from_ext` -/
def getContextTypeFromExt (ext : Option CStr) : Option CStr := contextTypeLoop ext types

/-! ## The responses -/

/-- The key `"Content-Type"`. -/
def contentType : CStr := .ofString "Content-Type"

/-- `send_local_file` on the response, with the size that `stat` gives for the file
and that `%u` prints; `none` when it has no extension to go by. -/
def sendLocalFile (res : HttpMessage) (filename : CStr) (stSize : ℕ) : Option HttpMessage := do
  let ext := strrchr filename (charByte '.')
  let vbuf := decimal (stSize % 4294967296)
  let type ← getContextTypeFromExt ext
  let res := httpcMessageSetValue res contentType type
  some (httpcMessageSetValue res contentLength vbuf)

/-- `ret_404`; the body ends with its NUL. -/
def ret404 (res : HttpMessage) (path : CStr) : HttpMessage :=
  let body := (bytes "NOT found ".toList ++ path.val).take 1023
  let res := httpcMessageSetStartLine res (.ofString "HTTP/1.0") (.ofString "404")
    (.ofString "File Not Found")
  let res := httpcMessageSetValue res contentType (.ofString "text/plain")
  (httpcMessageAppendBody res (body ++ [0])).1

/-- The response to an answer of `http_request`. -/
def respond (stSize : CStr → ℕ) (res : HttpMessage) : Answer → Option HttpMessage
  | .localFile filename => sendLocalFile res filename (stSize filename)
  | .notFound filename => some (ret404 res filename)

/-- `handle_http` with the response that `http_request` comes to: `none` when an
operation on the way to it is undefined, `some none` when the target is no URL. -/
def handleHttpResponse (regexec : List UInt8 → List UInt8 → Option (ℕ → RegMatch))
    (rootPath : CStr) (stat : CStr → Option ℕ) (stSize : CStr → ℕ) (target : CStr)
    (res : HttpMessage) : Option (Option HttpMessage) := do
  match ← handleHttp regexec rootPath stat target with
  | none => some none
  | some answer => some <$> respond stSize res answer

/-! ## What is undefined -/

/-- The stores of `strcat`, wherever the buffer ends. -/
def strcatStores (buf s : CStr) : List (ℕ × UInt8) :=
  StoreTrace.stores buf.strlen (s.val ++ [0])

/-- The stores of `build_filename`. -/
def buildFilenameStores (buf root path : CStr) : List (ℕ × UInt8) :=
  strcatStores buf root ++ strcatStores (CStr.ofBuffer (buf.val ++ root.val)) path

theorem within_strcatStores {size : ℕ} {buf s : CStr} :
    StoreTrace.Within size (strcatStores buf s) ↔ buf.strlen + s.strlen + 1 ≤ size := by
  rw [strcatStores, StoreTrace.within_stores (by simp), List.length_append, ← Nat.add_assoc]
  exact Iff.rfl

/-- A null pointer has no type, and every extension has one. -/
theorem getContextTypeFromExt_isSome_iff {ext : Option CStr} :
    (getContextTypeFromExt ext).isSome = true ↔ ext.isSome = true := by
  cases ext with
  | none => exact iff_of_false (by decide) (by decide)
  | some text =>
      have hloop : ∀ ets, (contextTypeLoop (some text) ets).isSome = true := by
        intro ets
        induction ets with
        | nil => rfl
        | cons et rest ih =>
            show (if CStr.eqIgnoreCase text et.ext = true then some et.type
              else contextTypeLoop (some text) rest).isSome = true
            split_ifs
            · rfl
            · exact ih
      exact iff_of_true (hloop types) rfl

theorem sendLocalFile_isSome_iff {res : HttpMessage} {filename : CStr} {stSize : ℕ} :
    (sendLocalFile res filename stSize).isSome = true ↔
      (strrchr filename (charByte '.')).isSome = true := by
  rw [← getContextTypeFromExt_isSome_iff]
  simp only [sendLocalFile]
  cases getContextTypeFromExt (strrchr filename (charByte '.')) with
  | none => rfl
  | some type => rfl

/-- Only a file without an extension has no response. -/
theorem respond_isSome_iff {stSize : CStr → ℕ} {res : HttpMessage} {answer : Answer} :
    (respond stSize res answer).isSome = true ↔
      ∀ filename, answer = .localFile filename →
        (strrchr filename (charByte '.')).isSome = true := by
  cases answer with
  | notFound filename => exact iff_of_true rfl fun _ heq => Answer.noConfusion heq
  | localFile filename =>
      rw [respond, sendLocalFile_isSome_iff]
      constructor
      · intro h name heq
        cases heq
        exact h
      · exact fun h => h filename rfl

end LibSimple.Httpsrv
