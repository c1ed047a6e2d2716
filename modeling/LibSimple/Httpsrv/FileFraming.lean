import LibSimple.Httpsrv.FileTransfer

/-!
# The framing of a file response

What a client of `httpsrv` gets for a file: the encoded head of the response and then
the file.  The head announces the size of the file modulo `2 ^ 32`, since `%u` prints
no more of `st_size`.
-/

namespace LibSimple.Httpsrv

open CLang Http

/-- `send_local_file` sends the head and then the file, and the head announces the
length of the file, however `fread` splits it and `send` takes it. -/
def FramesFile (filename : CStr) (file : List UInt8) : Prop :=
  ∀ reads blocks sends, Delivers reads blocks → blocks.flatten = file → Accepts sends →
    ∃ res sent, sendLocalFile makeDefaultResponse filename file.length = some res ∧
      Returns (sendLocalFileTo makeDefaultResponse filename file.length (some reads) sends)
        sent ∧
      sent.rc = 1 ∧
      sent.bytes = encodedText (.ofString "HTTP/1.0") (.ofString "200") (.ofString "OK")
        res.headers [] ++ file ∧
      httpcMessageGetValue res contentLength = some (decimal file.length)

/-! ## The head -/

theorem length_type {ext : Option CStr} {type : CStr}
    (h : getContextTypeFromExt ext = some type) : type.strlen ≤ 30 := by
  have htypes : ∀ et ∈ types, et.type.strlen ≤ 30 := by
    decide +kernel
  have hloop : ∀ ets : List ExtContentType, (∀ et ∈ ets, et.type.strlen ≤ 30) →
      ∀ type, contextTypeLoop ext ets = some type → type.strlen ≤ 30 := by
    intro ets
    induction ets with
    | nil =>
        intro _ type htype
        rw [contextTypeLoop, Option.some.injEq] at htype
        subst htype
        decide +kernel
    | cons et rest ih =>
        intro hets type htype
        rw [List.forall_mem_cons] at hets
        rw [contextTypeLoop, Option.bind_eq_bind, Option.bind_eq_some_iff] at htype
        obtain ⟨text, -, hif⟩ := htype
        split_ifs at hif with heq
        · rw [← Option.some.inj hif]
          exact hets.1
        · exact ih hets.2 type hif
  exact hloop types htypes type h

/-- The head that `send_local_file` encodes, with its type. -/
theorem sendLocalFile_eq {res res' : HttpMessage} {filename : CStr} {stSize : ℕ}
    (h : sendLocalFile res filename stSize = some res') :
    ∃ type, type.strlen ≤ 30 ∧
      res' = httpcMessageSetValue (httpcMessageSetValue res contentType type) contentLength
        (decimal (stSize % 4294967296)) := by
  rw [sendLocalFile, Option.bind_eq_bind, Option.bind_eq_some_iff] at h
  obtain ⟨type, htype, heq⟩ := h
  exact ⟨type, length_type htype, (Option.some.inj heq).symm⟩

/-- The head goes into the buffer as a whole. -/
theorem encodedBuffer_sendLocalFile {res : HttpMessage} {filename : CStr} {stSize : ℕ}
    (h : sendLocalFile makeDefaultResponse filename stSize = some res) :
    encodedBuffer res false = some (encodedText (.ofString "HTTP/1.0") (.ofString "200")
      (.ofString "OK") res.headers []) := by
  obtain ⟨type, htype, rfl⟩ := sendLocalFile_eq h
  refine encodedBuffer_eq_text false rfl ?_
  have hvalue : (decimal (stSize % 4294967296)).strlen ≤ 10 :=
    length_decimalDigits (by omega)
  have hkeys : contentLength.strlen + contentType.strlen ≤ 30 := by
    decide +kernel
  have hdefault : (startLineText (.ofString "HTTP/1.0") (.ofString "200")
      (.ofString "OK")).length + (makeDefaultResponse.headers.flatMap headerText).length ≤
        100 := by
    decide +kernel
  rw [intMax_eq]
  simp only [encodedText, httpcMessageSetValue, List.length_append, List.flatMap_cons,
    length_headerText, List.length_cons, List.length_nil, Bool.false_eq_true, if_false]
  omega

/-- The response announces what `%u` prints. -/
theorem getValue_sendLocalFile {res res' : HttpMessage} {filename : CStr} {stSize : ℕ}
    (h : sendLocalFile res filename stSize = some res') :
    httpcMessageGetValue res' contentLength = some (decimal (stSize % 4294967296)) := by
  obtain ⟨type, -, rfl⟩ := sendLocalFile_eq h
  rfl

theorem decimal_injective : Function.Injective decimal := by
  intro m n h
  rw [← digitsValue_decimalDigits m, ← digitsValue_decimalDigits n]
  exact congrArg (fun s => digitsValue s.val) h

/-! ## Framing -/

/-- `send_local_file` writes the head and then the file. -/
theorem sendLocalFileTo_framed {res : HttpMessage} {filename : CStr} {stSize : ℕ}
    (hres : sendLocalFile makeDefaultResponse filename stSize = some res)
    {reads : Stream' Fread} {blocks : List (List UInt8)} (hreads : Delivers reads blocks)
    {sends : Stream' ℤ} (hsends : Accepts sends) :
    ∃ sent, Returns (sendLocalFileTo makeDefaultResponse filename stSize (some reads) sends)
        sent ∧
      sent.rc = 1 ∧
      sent.bytes = encodedText (.ofString "HTTP/1.0") (.ofString "200") (.ofString "OK")
        res.headers [] ++ blocks.flatten := by
  obtain ⟨ahead, hahead, hhead⟩ := sendData_accepts (encodedText (.ofString "HTTP/1.0")
    (.ofString "200") (.ofString "OK") res.headers []) hsends
  obtain ⟨last, needed, hneeded⟩ := copyLoop_delivers hreads hahead
  refine ⟨⟨1, _, last⟩, ⟨needed, fun fuel hfuel => ?_⟩, rfl, rfl⟩
  rw [sendLocalFileTo, hres, Option.bind_eq_bind, Option.bind_some,
    encodedBuffer_sendLocalFile hres, Option.bind_eq_bind, Option.bind_some, hhead]
  show (copyLoop false reads ahead fuel).map _ = _
  rw [hneeded fuel hfuel]
  rfl

/-- A file that is framed has an extension and fewer than `2 ^ 32` bytes. -/
theorem lt_of_framesFile {filename : CStr} {file : List UInt8} (h : FramesFile filename file) :
    charByte '.' ∈ filename.val ∧ file.length < 4294967296 := by
  obtain ⟨reads, blocks, hreads, hblocks⟩ := exists_delivers file
  obtain ⟨res, sent, hres, -, -, -, hvalue⟩ :=
    h reads blocks (Stream'.const 1) hreads hblocks fun _ => Int.one_pos
  constructor
  · rw [← strrchr_isSome_iff, ← sendLocalFile_isSome_iff, hres]
    rfl
  · rw [getValue_sendLocalFile hres, Option.some.injEq] at hvalue
    have hmod : file.length % 4294967296 = file.length := decimal_injective hvalue
    omega

/-- A file is framed exactly when its name has an extension to go by and its size fits
the 32 bits that `%u` prints. -/
theorem framesFile_iff (filename : CStr) (file : List UInt8) :
    FramesFile filename file ↔ charByte '.' ∈ filename.val ∧ file.length < 4294967296 := by
  refine ⟨lt_of_framesFile, fun ⟨hdot, hsize⟩ => ?_⟩
  intro reads blocks sends hreads hblocks hsends
  obtain ⟨res, hres⟩ : ∃ res, sendLocalFile makeDefaultResponse filename file.length =
      some res := by
    rwa [← Option.isSome_iff_exists, sendLocalFile_isSome_iff, strrchr_isSome_iff]
  obtain ⟨sent, hsent, hrc, hbytes⟩ := sendLocalFileTo_framed hres hreads hsends
  rw [hblocks] at hbytes
  refine ⟨res, sent, hres, hsent, hrc, hbytes, ?_⟩
  rw [getValue_sendLocalFile hres, Nat.mod_eq_of_lt hsize]

/-- A video of 4 GiB is announced as an empty file. -/
theorem not_framesFile_video :
    ¬ FramesFile (.ofString "video.mp4") (List.replicate 4294967296 0) := by
  intro h
  have hlt := (lt_of_framesFile h).2
  rw [List.length_replicate] at hlt
  exact lt_irrefl _ hlt

end LibSimple.Httpsrv
