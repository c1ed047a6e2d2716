import LibSimple.Httpsrv.Connection

/-!
# What a client gets

A request and its reply, from the text that one client encodes to the message that it
parses of what comes back, however the reply is cut into pieces on its way.
-/

namespace LibSimple.Httpsrv

open CLang PosixRegex Url Http Runs

/-! ## A reply on its way -/

/-- The text of a message is parsed of all its pieces. -/
theorem parsePieces_encodedText {msg : HttpMessage} {p1 p2 p3 : CStr}
    (h : HeadOk msg p1 p2 p3) (hfit : LinesFit msg p1 p2 p3)
    (hlen : (msg.bodylen : ℤ) = max 0 (getmsglen (collected msg)))
    {pieces : List (List UInt8)}
    (hpieces : pieces.flatten = encodedText p1 p2 p3 msg.headers msg.body) :
    ∃ s, parsePieces none pieces =
        .ok (some s, (encodedText p1 p2 p3 msg.headers msg.body).length) ∧
      s.pd.state = .complete ∧ s.msg = { collected msg with body := msg.body } := by
  obtain ⟨s, hs, hdone, hmsg⟩ := appendBytes_encodedText h hfit hlen
  have hne : pieces ≠ [] := by
    rintro rfl
    have hnil : encodedText p1 p2 p3 msg.headers msg.body = [] := hpieces.symm
    rw [encodedText_eq_head] at hnil
    simp at hnil
  refine ⟨s, ?_, hdone, hmsg⟩
  rw [parsePieces_none hne, hpieces, hs]
  rfl

/-! ## The replies of the server -/

/-- A message as `httpsrv` sends it. -/
def reply (start : StartLine) (type : CStr) (body : List UInt8) : HttpMessage where
  startLine := start
  headers := ⟨contentLength, decimal body.length⟩ :: ⟨contentType, type⟩ ::
    makeDefaultResponse.headers
  headerCnt := 4
  body := body

/-- A type that a header can carry. -/
def TypeOk (type : CStr) : Prop :=
  (type.val ≠ [] ∧ (∀ c ∈ type.val.head?, isspace c = false) ∧
    ∀ c ∈ type.val.getLast?, isspace c = false) ∧
    (∀ c ∈ type.val, c ≠ cr ∧ c ≠ lf) ∧ type.strlen ≤ 30

instance (type : CStr) : Decidable (TypeOk type) := inferInstanceAs (Decidable (_ ∧ _))

/-- Every type that a file can have is one. -/
theorem typeOk_of_ext {ext : Option CStr} {type : CStr}
    (h : getContextTypeFromExt ext = some type) : TypeOk type := by
  have htypes : ∀ et ∈ types, TypeOk et.type := by
    decide +kernel
  have hloop : ∀ ets : List ExtContentType, (∀ et ∈ ets, TypeOk et.type) →
      ∀ type, contextTypeLoop ext ets = some type → TypeOk type := by
    intro ets
    induction ets with
    | nil =>
        intro _ type htype
        rw [contextTypeLoop, Option.some.injEq] at htype
        subst htype
        decide +kernel
    | cons et rest ih =>
        intro hets type htype
        rw [List.forall_mem_cons] at hets
        rw [contextTypeLoop, Option.bind_eq_bind, Option.bind_eq_some_iff] at htype
        obtain ⟨text, -, hif⟩ := htype
        split_ifs at hif with heq
        · rw [← Option.some.inj hif]
          exact hets.1
        · exact ih hets.2 type hif
  exact hloop types htypes type h

theorem headerOk_contentType {type : CStr} (h : TypeOk type) : HeaderOk ⟨contentType, type⟩ := by
  obtain ⟨⟨hne, hfront, hback⟩, htext, -⟩ := h
  have hkey : Trimmed contentType.val := by
    constructor
    · decide +kernel
    · decide +kernel
    · decide +kernel
  have hlength : 2 ≤ contentType.val.length := by
    decide +kernel
  have hkeyText : ∀ c ∈ contentType.val, c ≠ colon ∧ c ≠ cr ∧ c ≠ lf := by
    decide +kernel
  exact ⟨hkey, ⟨hne, hfront, hback⟩, hlength, hkeyText, htext⟩

/-- The headers that every reply has. -/
theorem headerOk_default : ∀ h ∈ makeDefaultResponse.headers,
    HeaderOk h ∧ (headerText h).length ≤ maxLine := by
  intro h hmem
  have hall : ∀ h ∈ makeDefaultResponse.headers,
      (h.key.val ≠ [] ∧ (∀ c ∈ h.key.val.head?, isspace c = false) ∧
        ∀ c ∈ h.key.val.getLast?, isspace c = false) ∧
      (h.value.val ≠ [] ∧ (∀ c ∈ h.value.val.head?, isspace c = false) ∧
        ∀ c ∈ h.value.val.getLast?, isspace c = false) ∧
      2 ≤ h.key.val.length ∧ (∀ c ∈ h.key.val, c ≠ colon ∧ c ≠ cr ∧ c ≠ lf) ∧
      (∀ c ∈ h.value.val, c ≠ cr ∧ c ≠ lf) ∧ (headerText h).length ≤ maxLine := by
    decide +kernel
  obtain ⟨⟨hk1, hk2, hk3⟩, ⟨hv1, hv2, hv3⟩, hlength, hkey, hvalue, hline⟩ := hall h hmem
  exact ⟨⟨⟨hk1, hk2, hk3⟩, ⟨hv1, hv2, hv3⟩, hlength, hkey, hvalue⟩, hline⟩

variable {p1 p2 p3 type : CStr} {body : List UInt8}

theorem headOk_reply (hstart : StartLineOk p1 p2 p3) (htype : TypeOk type) :
    HeadOk (reply ⟨some p1, some p2, some p3⟩ type body) p1 p2 p3 := by
  refine ⟨rfl, hstart, fun h hmem => ?_⟩
  rcases List.mem_cons.mp hmem with rfl | hmem
  · exact headerOk_contentLength _
  · rcases List.mem_cons.mp hmem with rfl | hmem
    · exact headerOk_contentType htype
    · exact (headerOk_default h hmem).1

theorem linesFit_reply (hstart : (startLineText p1 p2 p3).length ≤ maxLine) (htype : TypeOk type)
    (hbody : body.length ≤ intMax) :
    LinesFit (reply ⟨some p1, some p2, some p3⟩ type body) p1 p2 p3 := by
  refine ⟨hstart, fun h hmem => ?_⟩
  rcases List.mem_cons.mp hmem with rfl | hmem
  · exact length_contentLengthText hbody
  · rcases List.mem_cons.mp hmem with rfl | hmem
    · have hkey : contentType.strlen = 12 := rfl
      have hlength := htype.2.2
      rw [length_headerText, maxLine_eq]
      show contentType.strlen + 2 + type.strlen + 2 ≤ 2147483520
      omega
    · exact (headerOk_default h hmem).2

theorem getValue_reply (start : StartLine) (type : CStr) (body : List UInt8) :
    httpcMessageGetValue (collected (reply start type body)) contentType = some type ∧
      httpcMessageGetValue (collected (reply start type body)) contentLength =
        some (decimal body.length) := by
  have hheaders : (collected (reply start type body)).headers =
      makeDefaultResponse.headers.reverse ++
        [⟨contentType, type⟩, ⟨contentLength, decimal body.length⟩] := by
    rw [collected, (foldl_setValue _ _).2.2]
    rfl
  have hnone : ∀ key ∈ [contentType, contentLength], (makeDefaultResponse.headers.reverse.find?
      fun h => CStr.eqIgnoreCase h.key key) = none := by
    decide +kernel
  have htype : CStr.eqIgnoreCase contentType contentType = true := by decide +kernel
  have hlength : CStr.eqIgnoreCase contentLength contentLength = true := by decide +kernel
  have hother : CStr.eqIgnoreCase contentType contentLength = false := by decide +kernel
  constructor
  · rw [httpcMessageGetValue, hheaders, List.find?_append, hnone _ (by simp), Option.none_or]
    simp only [List.find?_cons, htype, Option.map_some]
  · rw [httpcMessageGetValue, hheaders, List.find?_append, hnone _ (by simp), Option.none_or]
    simp only [List.find?_cons, hother, hlength, Option.map_some]

theorem length_reply (start : StartLine) (htype : TypeOk type) (hbody : body.length ≤ intMax) :
    (encodedText p1 p2 p3 (reply start type body).headers body).length ≤
      (startLineText p1 p2 p3).length + 200 + body.length := by
  have hdigits : (decimal body.length).strlen ≤ 10 :=
    length_decimalDigits (by unfold intMax at hbody; omega)
  have hlength : contentLength.strlen = 14 := rfl
  have hkey : contentType.strlen = 12 := rfl
  have htypeLength := htype.2.2
  have hdefault : (makeDefaultResponse.headers.flatMap headerText).length ≤ 100 := by
    decide +kernel
  simp only [encodedText, reply, List.flatMap_cons, List.length_append, length_headerText,
    List.length_cons, List.length_nil]
  omega

/-- However the bytes are cut into pieces, they are parsed to the last one, as a complete
message with this start line, type and body. -/
def Received (got : List UInt8) (start : StartLine) (type : CStr) (body : List UInt8) : Prop :=
  ∀ pieces, pieces.flatten = got → ∃ s, parsePieces none pieces = .ok (some s, got.length) ∧
    s.pd.state = .complete ∧ s.msg.startLine = start ∧ s.msg.body = body ∧
    httpcMessageGetValue s.msg contentType = some type

theorem received_reply (hstart : StartLineOk p1 p2 p3)
    (hfit : (startLineText p1 p2 p3).length ≤ maxLine) (htype : TypeOk type)
    (hbody : body.length ≤ intMax) :
    Received (encodedText p1 p2 p3 (reply ⟨some p1, some p2, some p3⟩ type body).headers body)
      ⟨some p1, some p2, some p3⟩ type body := by
  intro pieces hpieces
  obtain ⟨hvalue, hlength⟩ := getValue_reply ⟨some p1, some p2, some p3⟩ type body
  have hlen : ((reply ⟨some p1, some p2, some p3⟩ type body).bodylen : ℤ) =
      max 0 (getmsglen (collected (reply ⟨some p1, some p2, some p3⟩ type body))) := by
    rw [getmsglen, hlength]
    show (body.length : ℤ) = max 0 (atoi (decimal body.length))
    rw [atoi_decimal hbody]
    omega
  obtain ⟨s, hs, hdone, hmsg⟩ := parsePieces_encodedText (headOk_reply hstart htype)
    (linesFit_reply hfit htype hbody) hlen hpieces
  refine ⟨s, hs, hdone, ?_, ?_, ?_⟩
  · rw [hmsg]
    exact (foldl_setValue _ _).1
  · rw [hmsg]
    rfl
  · rw [hmsg]
    exact hvalue

/-! ## Requests and replies -/

/-- `HTTP/1.0 200 OK` -/
def okStart : StartLine :=
  ⟨some (.ofString "HTTP/1.0"), some (.ofString "200"), some (.ofString "OK")⟩

/-- `HTTP/1.0 404 File Not Found` -/
def notFoundStart : StartLine :=
  ⟨some (.ofString "HTTP/1.0"), some (.ofString "404"), some (.ofString "File Not Found")⟩

/-- There is a file of this name with these contents: `stat` gives its size, and it can be
opened and read to its end. -/
structure Readable (env : Env) (filename : CStr) (file : List UInt8) : Prop where
  isLocal : isLocalFile env.stat filename = true
  size : env.stSize filename = file.length
  opens : ∃ reads blocks, env.fopen filename = some reads ∧ Delivers reads blocks ∧
    blocks.flatten = file

section

variable {msg : HttpMessage} {q1 q2 q3 : CStr} {env : Env} {sends : Stream' ℤ}

/-- The server gets the headers of a request, and leaves its body in the socket. -/
theorem makeRequest_encodedText (h : HeadOk msg q1 q2 q3) (hfit : LinesFit msg q1 q2 q3)
    (more : List UInt8) :
    ∃ req, makeRequest (encodedText q1 q2 q3 msg.headers msg.body ++ more) =
        .ok (some req, msg.body ++ more) ∧ req.msg.startLine.p2 = some q2 ∧
      q2.strlen + 4 ≤ intMax := by
  obtain ⟨req, hhead, hreq⟩ := headEnds_encodedText h hfit
  have htarget : req.msg.startLine.p2 = some q2 := by
    rw [hreq, collected, (foldl_setValue _ _).1]
    exact congrArg StartLine.p2 h.start
  refine ⟨req, ?_, htarget, strlen_target_le hhead htarget⟩
  rw [encodedText_append, List.append_assoc]
  exact makeRequest_of_headEnds hhead (msg.body ++ more)

/-- The answer to a target whose name fits into its buffer. -/
theorem handleHttp_of_fits (hposix : PosixRegexec env.regexec) (htarget : q2.strlen + 4 ≤ intMax)
    (hname : env.rootPath.strlen + (targetPath q2).strlen + 1 ≤ filenameSize) :
    handleHttp env.regexec env.rootPath env.stat q2 =
      some (some (if isLocalFile env.stat (filenameOf env.rootPath (targetPath q2)) = true then
        .localFile (filenameOf env.rootPath (targetPath q2))
      else .notFound (filenameOf env.rootPath (targetPath q2)))) := by
  obtain ⟨url, hurl, hpath⟩ := simpleUrlParse_path hposix htarget
  rw [← hpath] at hname ⊢
  rw [handleHttp, hurl]
  show some <$> httpRequest env.rootPath env.stat url = _
  rw [(httpRequest_of_fits hname).mpr rfl]
  rfl

/-- What `handle` does with a request that has been taken. -/
theorem handle_of_request {recv rest : List UInt8} {req : Parser} {target : CStr}
    {answer : Answer} (hreq : makeRequest recv = .ok (some req, rest))
    (htarget : req.msg.startLine.p2 = some target)
    (hanswer : handleHttp env.regexec env.rootPath env.stat target = some (some answer))
    (fuel : ℕ) :
    handle env recv sends fuel =
      (sendAnswer env makeDefaultResponse sends fuel answer).map Sent.bytes := by
  rw [handle, hreq]
  dsimp only
  rw [htarget, Option.bind_eq_bind, Option.bind_some, hanswer]
  rfl

/-- The text of the page for a file that is not there. -/
def notFoundBody (filename : CStr) : List UInt8 :=
  (bytes "NOT found ".toList ++ filename.val).take 1023 ++ [0]

theorem ret404_eq (filename : CStr) :
    ret404 makeDefaultResponse filename =
      reply notFoundStart (.ofString "text/plain") (notFoundBody filename) := by
  have hne : notFoundBody filename ≠ [] := by
    rw [notFoundBody]
    exact List.append_ne_nil_of_right_ne_nil _ (List.cons_ne_nil _ _)
  rw [ret404]
  show (httpcMessageAppendBody _ (notFoundBody filename)).1 = _
  rw [httpcMessageAppendBody, if_neg hne]
  rfl

theorem length_notFoundBody (filename : CStr) : (notFoundBody filename).length ≤ 1024 := by
  rw [notFoundBody, List.length_append, List.length_take, List.length_singleton]
  omega

/-- A request for a file that is not there: the client gets the page that says so. -/
theorem notFound_received (hposix : PosixRegexec env.regexec)
    (h : HeadOk msg q1 q2 q3) (hfit : LinesFit msg q1 q2 q3)
    (hname : env.rootPath.strlen + (targetPath q2).strlen + 1 ≤ filenameSize)
    (hfile : isLocalFile env.stat (filenameOf env.rootPath (targetPath q2)) = false)
    (hsends : Accepts sends) (more : List UInt8) :
    ∃ got, (∀ fuel, handle env (encodedText q1 q2 q3 msg.headers msg.body ++ more) sends fuel =
        some got) ∧
      Received got notFoundStart (.ofString "text/plain")
        (notFoundBody (filenameOf env.rootPath (targetPath q2))) := by
  obtain ⟨req, hreq, htarget, hlength⟩ := makeRequest_encodedText h hfit more
  have hanswer := handleHttp_of_fits hposix hlength hname
  rw [hfile, if_neg Bool.false_ne_true] at hanswer
  have hbody := length_notFoundBody (filenameOf env.rootPath (targetPath q2))
  have hstart : StartLineOk (.ofString "HTTP/1.0") (.ofString "404")
      (.ofString "File Not Found") :=
    ⟨by decide +kernel, by decide +kernel, by decide +kernel⟩
  have htype : TypeOk (.ofString "text/plain") := by decide +kernel
  have hintMax : (1024 : ℕ) ≤ intMax := by decide
  have hfits : (encodedText (.ofString "HTTP/1.0") (.ofString "404") (.ofString "File Not Found")
      (reply notFoundStart (.ofString "text/plain")
        (notFoundBody (filenameOf env.rootPath (targetPath q2)))).headers
      (notFoundBody (filenameOf env.rootPath (targetPath q2)))).length ≤ intMax := by
    have hhead : (startLineText (.ofString "HTTP/1.0") (.ofString "404")
        (.ofString "File Not Found")).length ≤ 100 := by
      decide +kernel
    refine (length_reply notFoundStart htype (hbody.trans hintMax)).trans ?_
    rw [intMax_eq]
    omega
  have hbuffer : encodedBuffer (reply notFoundStart (.ofString "text/plain")
      (notFoundBody (filenameOf env.rootPath (targetPath q2)))) true = _ :=
    (encodedBuffer_eq rfl hfits).1
  obtain ⟨ahead, -, hsent⟩ := sendData_accepts _ hsends
  refine ⟨_, fun fuel => ?_, received_reply hstart (by decide +kernel) htype
    (hbody.trans hintMax)⟩
  rw [handle_of_request hreq htarget hanswer, sendAnswer, sendRes, ret404_eq, hbuffer,
    Option.bind_eq_bind, Option.bind_some, hsent]
  rfl

/-- A server with these files, all of them with the same text. -/
def helloServer (stat : CStr → Option ℕ) : Env where
  regexec := regexecAll
  rootPath := .ofString "/srv/www"
  stat := stat
  stSize := fun _ => 5
  fopen := fun _ => some (Stream'.const ⟨bytes "hello".toList, by decide, true⟩)

/-- A request without headers. -/
def getRequest (target : CStr) : HttpMessage :=
  { httpcMessageCreate with startLine := ⟨some getText, some target, some versionText⟩ }

theorem headOk_getRequest : HeadOk (getRequest (.ofString "/index.html")) getText
    (.ofString "/index.html") versionText ∧
      LinesFit (getRequest (.ofString "/index.html")) getText (.ofString "/index.html")
        versionText := by
  refine ⟨⟨rfl, ⟨by decide +kernel, by decide +kernel, by decide +kernel⟩, ?_⟩, ?_, ?_⟩
  · intro h hmem
    cases hmem
  · decide +kernel
  · intro h hmem
    cases hmem

theorem notFound_received_empty :
    ∃ got, (∀ fuel, handle (helloServer fun _ => none) (encodedText getText
        (.ofString "/index.html") versionText (getRequest (.ofString "/index.html")).headers
        (getRequest (.ofString "/index.html")).body ++ []) (Stream'.const 1) fuel = some got) ∧
      Received got notFoundStart (.ofString "text/plain")
        (notFoundBody (filenameOf (.ofString "/srv/www")
          (targetPath (.ofString "/index.html")))) := by
  have hposix : PosixRegexec (helloServer fun _ => none).regexec := posixRegexec_regexecAll
  exact notFound_received hposix headOk_getRequest.1 headOk_getRequest.2 (by decide +kernel)
    (by decide +kernel) (fun _ => Int.one_pos) []

/-- The response that `send_local_file` makes of the default one. -/
theorem sendLocalFile_of_type {filename : CStr} {size : ℕ}
    (htype : getContextTypeFromExt (strrchr filename (charByte '.')) = some type)
    (hsize : size < 4294967296) (file : List UInt8) (hfile : size = file.length) :
    ∃ res, sendLocalFile makeDefaultResponse filename size = some res ∧
      res.headers = (reply okStart type file).headers := by
  refine ⟨httpcMessageSetValue (httpcMessageSetValue makeDefaultResponse contentType type)
    contentLength (decimal file.length), ?_, rfl⟩
  rw [sendLocalFile, htype, Nat.mod_eq_of_lt hsize, hfile]
  rfl

/-- A request for a file that is there: the client gets its contents. -/
theorem file_received {file : List UInt8} (hposix : PosixRegexec env.regexec)
    (h : HeadOk msg q1 q2 q3) (hfit : LinesFit msg q1 q2 q3)
    (hname : env.rootPath.strlen + (targetPath q2).strlen + 1 ≤ filenameSize)
    (hdot : charByte '.' ∈ (filenameOf env.rootPath (targetPath q2)).val)
    (hfile : Readable env (filenameOf env.rootPath (targetPath q2)) file)
    (hsize : file.length ≤ intMax) (hsends : Accepts sends) (more : List UInt8) :
    ∃ got type,
      Returns (handle env (encodedText q1 q2 q3 msg.headers msg.body ++ more) sends) got ∧
      getContextTypeFromExt (strrchr (filenameOf env.rootPath (targetPath q2)) (charByte '.')) =
        some type ∧
      Received got okStart type file := by
  obtain ⟨req, hreq, htarget, hlength⟩ := makeRequest_encodedText h hfit more
  obtain ⟨hlocal, hstat, reads, blocks, hopen, hreads, hblocks⟩ := hfile
  have hanswer := handleHttp_of_fits hposix hlength hname
  rw [if_pos hlocal] at hanswer
  obtain ⟨type, htype⟩ : ∃ type, getContextTypeFromExt
      (strrchr (filenameOf env.rootPath (targetPath q2)) (charByte '.')) = some type := by
    rwa [← Option.isSome_iff_exists, getContextTypeFromExt_isSome_iff, strrchr_isSome_iff]
  obtain ⟨res, hres, hheaders⟩ := sendLocalFile_of_type htype
    (by unfold intMax at hsize; omega) file hstat
  obtain ⟨sent, ⟨needed, hneeded⟩, -, hbytes⟩ := sendLocalFileTo_framed hres hreads hsends
  rw [hheaders, hblocks, ← encodedText_append] at hbytes
  have hstart : StartLineOk (.ofString "HTTP/1.0") (.ofString "200") (.ofString "OK") :=
    ⟨by decide +kernel, by decide +kernel, by decide +kernel⟩
  refine ⟨sent.bytes, type, ⟨needed, fun fuel hfuel => ?_⟩, htype, ?_⟩
  · rw [handle_of_request hreq htarget hanswer, sendAnswer, hopen, hneeded fuel hfuel]
    rfl
  · rw [hbytes]
    exact received_reply hstart (by decide +kernel) (typeOk_of_ext htype) hsize

theorem file_received_hello :
    ∃ got type,
      Returns (handle (helloServer anyFile) (encodedText getText (.ofString "/index.html")
        versionText (getRequest (.ofString "/index.html")).headers
        (getRequest (.ofString "/index.html")).body ++ []) (Stream'.const 1)) got ∧
      getContextTypeFromExt (strrchr (filenameOf (.ofString "/srv/www")
        (targetPath (.ofString "/index.html"))) (charByte '.')) = some type ∧
      Received got okStart type (bytes "hello".toList) := by
  have hfile : Readable (helloServer anyFile) (filenameOf (.ofString "/srv/www")
      (targetPath (.ofString "/index.html"))) (bytes "hello".toList) :=
    ⟨by decide +kernel, rfl, _, _, rfl, .last rfl, List.append_nil _⟩
  exact file_received posixRegexec_regexecAll headOk_getRequest.1 headOk_getRequest.2
    (by decide +kernel) (by decide +kernel) hfile (by decide) (fun _ => Int.one_pos) []

end

end LibSimple.Httpsrv
