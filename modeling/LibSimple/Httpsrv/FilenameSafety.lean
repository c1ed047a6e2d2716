import LibSimple.Httpsrv.Containment
import LibSimple.Httpsrv.Response

/-!
# From a request to the name of a file

`build_filename` ignores its argument `size`, and `send_local_file` hands the result
of `strrchr` on without a look at it.  So a long path leaves the buffer, and a file
without a dot anywhere in its name gives `strcasecmp` a null pointer; this module
says that nothing else goes wrong on the way to a response.
-/

namespace LibSimple.Httpsrv

open CLang PosixRegex Url Http StoreTrace

/-! ## The name -/

/-- The name of the file for a path. -/
def filenameOf (rootPath path : CStr) : CStr := CStr.ofBuffer (rootPath.val ++ path.val)

theorem filenameOf_val (rootPath path : CStr) :
    (filenameOf rootPath path).val = rootPath.val ++ path.val := by
  apply CStr.ofBuffer_val_of_notMem
  intro hmem
  exact (List.mem_append.mp hmem).elim rootPath.2 path.2

/-- The first `strcat` copies the root. -/
theorem ofBuffer_empty_append (s : CStr) :
    CStr.ofBuffer ((CStr.ofBuffer []).val ++ s.val) = s := CStr.ofBuffer_val s

theorem strlen_empty : (CStr.ofBuffer []).strlen = 0 := rfl

/-- `build_filename` in an empty buffer -/
theorem buildFilename_eq (size : ℕ) (rootPath path : CStr) :
    buildFilename (CStr.ofBuffer []) size rootPath path =
      if rootPath.strlen + path.strlen + 1 ≤ size then some (filenameOf rootPath path)
      else none := by
  rw [buildFilename, strcat, ofBuffer_empty_append, strlen_empty, Nat.zero_add]
  by_cases hfits : rootPath.strlen + 1 ≤ size
  · rw [if_pos hfits]
    rfl
  · rw [if_neg hfits, if_neg (by omega)]
    rfl

/-- The stores of `build_filename` stay in the buffer when the name fits. -/
theorem within_buildFilenameStores {size : ℕ} {rootPath path : CStr} :
    Within size (buildFilenameStores (CStr.ofBuffer []) rootPath path) ↔
      rootPath.strlen + path.strlen + 1 ≤ size := by
  rw [buildFilenameStores, within_append, within_strcatStores, within_strcatStores,
    ofBuffer_empty_append, strlen_empty]
  omega

/-! ## The request -/

section Request

variable (regexec : List UInt8 → List UInt8 → Option (ℕ → RegMatch)) (rootPath : CStr)
variable (stat : CStr → Option ℕ) (target : CStr)

/-- `http_request` for this target keeps to its buffer, and has an extension for every
file that it goes on with. -/
structure RequestSafe : Prop where
  stores : ∀ url, simpleUrlParse regexec target = some (some url) →
    Within filenameSize (buildFilenameStores (CStr.ofBuffer []) rootPath url.path)
  extension : ∀ url filename, simpleUrlParse regexec target = some (some url) →
    buildFilename (CStr.ofBuffer []) filenameSize rootPath url.path = some filename →
    isLocalFile stat filename = true → (strrchr filename (charByte '.')).isSome = true

/-- The name fits into the buffer, and holds a dot if it is the name of a file. -/
structure NameOk (path : CStr) : Prop where
  fits : rootPath.strlen + path.strlen + 1 ≤ filenameSize
  dotted : isLocalFile stat (filenameOf rootPath path) = true →
    charByte '.' ∈ rootPath.val ++ path.val

variable {regexec rootPath stat target}

theorem requestSafe_iff (hposix : PosixRegexec regexec) (htarget : target.strlen + 4 ≤ intMax) :
    RequestSafe regexec rootPath stat target ↔ NameOk rootPath stat (targetPath target) := by
  obtain ⟨url, hurl, hpath⟩ := simpleUrlParse_path hposix htarget
  constructor
  · intro hsafe
    have hfits := within_buildFilenameStores.mp (hsafe.stores url hurl)
    rw [hpath] at hfits
    refine ⟨hfits, fun hlocal => ?_⟩
    have hbuild := buildFilename_eq filenameSize rootPath (targetPath target)
    rw [if_pos hfits, ← hpath] at hbuild
    have hdot := hsafe.extension url _ hurl hbuild (hpath ▸ hlocal)
    rwa [strrchr_isSome_iff, filenameOf_val, hpath] at hdot
  · intro hok
    refine ⟨fun url' hurl' => ?_, fun url' filename hurl' hbuild hlocal => ?_⟩
    · obtain rfl : url = url' := Option.some.inj (Option.some.inj (hurl.symm.trans hurl'))
      rw [within_buildFilenameStores, hpath]
      exact hok.fits
    · obtain rfl : url = url' := Option.some.inj (Option.some.inj (hurl.symm.trans hurl'))
      rw [hpath, buildFilename_eq, if_pos hok.fits] at hbuild
      obtain rfl := Option.some.inj hbuild
      rw [strrchr_isSome_iff, filenameOf_val]
      exact hok.dotted hlocal

theorem handleHttpResponse_isSome {url : UrlT}
    (hurl : simpleUrlParse regexec target = some (some url)) (stSize : CStr → ℕ)
    (res : HttpMessage) :
    (handleHttpResponse regexec rootPath stat stSize target res).isSome = true ↔
      ∃ answer, httpRequest rootPath stat url = some answer ∧
        (respond stSize res answer).isSome = true := by
  rw [handleHttpResponse, handleHttp, hurl]
  cases hanswer : httpRequest rootPath stat url with
  | none => simp [hanswer]
  | some answer => simp [hanswer]

/-- The answer when the name fits. -/
theorem httpRequest_of_fits {url : UrlT} {answer : Answer}
    (hfits : rootPath.strlen + url.path.strlen + 1 ≤ filenameSize) :
    httpRequest rootPath stat url = some answer ↔
      answer = if isLocalFile stat (filenameOf rootPath url.path) = true then
        .localFile (filenameOf rootPath url.path)
      else .notFound (filenameOf rootPath url.path) := by
  rw [httpRequest, buildFilename_eq, if_pos hfits, Option.bind_eq_bind, Option.bind_some,
    ← apply_ite some, Option.some.injEq, eq_comm]

/-- There is a response exactly when the name is as it should be. -/
theorem handleHttpResponse_isSome_iff (hposix : PosixRegexec regexec)
    (htarget : target.strlen + 4 ≤ intMax) (stSize : CStr → ℕ) (res : HttpMessage) :
    (handleHttpResponse regexec rootPath stat stSize target res).isSome = true ↔
      NameOk rootPath stat (targetPath target) := by
  obtain ⟨url, hurl, hpath⟩ := simpleUrlParse_path hposix htarget
  rw [handleHttpResponse_isSome hurl, ← hpath]
  by_cases hfits : rootPath.strlen + url.path.strlen + 1 ≤ filenameSize
  · simp only [httpRequest_of_fits hfits, exists_eq_left, respond_isSome_iff]
    by_cases hlocal : isLocalFile stat (filenameOf rootPath url.path) = true
    · rw [if_pos hlocal]
      constructor
      · intro h
        have hdot := h _ rfl
        rw [strrchr_isSome_iff, filenameOf_val] at hdot
        exact ⟨hfits, fun _ => hdot⟩
      · rintro hok filename heq
        obtain rfl := Answer.localFile.inj heq
        rw [strrchr_isSome_iff, filenameOf_val]
        exact hok.dotted hlocal
    · rw [if_neg hlocal]
      exact iff_of_true (fun _ heq => Answer.noConfusion heq) ⟨hfits, fun h => absurd h hlocal⟩
  · refine iff_of_false ?_ fun hok => hfits hok.fits
    rintro ⟨answer, hanswer, -⟩
    rw [httpRequest, buildFilename_eq, if_neg hfits] at hanswer
    cases hanswer

/-- A request is safe, and comes to a response, exactly when the name fits and a file has
a dot in its name. -/
theorem request_safe_iff (hposix : PosixRegexec regexec) (rootPath : CStr)
    (stat : CStr → Option ℕ) (stSize : CStr → ℕ) (htarget : target.strlen + 4 ≤ intMax)
    (res : HttpMessage) :
    (RequestSafe regexec rootPath stat target ↔ NameOk rootPath stat (targetPath target)) ∧
      ((handleHttpResponse regexec rootPath stat stSize target res).isSome = true ↔
        NameOk rootPath stat (targetPath target)) :=
  ⟨requestSafe_iff hposix htarget, handleHttpResponse_isSome_iff hposix htarget stSize res⟩

end Request

/-- A file system in which every name is that of a file. -/
def anyFile : CStr → Option ℕ := fun _ => some 0o100644

/-- `/index.html` has a response. -/
theorem request_safe_iff_index :
    RequestSafe regexecAll (.ofString "/srv/www") anyFile (.ofString "/index.html") ∧
      (handleHttpResponse regexecAll (.ofString "/srv/www") anyFile (fun _ => 12)
        (.ofString "/index.html") httpcMessageCreate).isSome = true := by
  have hok : NameOk (.ofString "/srv/www") anyFile (targetPath (.ofString "/index.html")) :=
    ⟨by decide +kernel, fun _ => by decide +kernel⟩
  have htarget : (CStr.ofString "/index.html").strlen + 4 ≤ intMax := by decide +kernel
  have hiff := request_safe_iff posixRegexec_regexecAll (.ofString "/srv/www") anyFile
    (fun _ => 12) htarget httpcMessageCreate
  exact ⟨hiff.1.mpr hok, hiff.2.mpr hok⟩

/-- A file without a dot in its name is asked for, and a long path leaves the buffer. -/
theorem not_request_safe_readme :
    delivered (bytes "GET /README HTTP/1.0\r\n\r\n".toList) = some (.ofString "/README") ∧
      ¬ RequestSafe regexecAll (.ofString "/srv/www") anyFile (.ofString "/README") ∧
      handleHttpResponse regexecAll (.ofString "/srv/www") anyFile (fun _ => 12)
        (.ofString "/README") httpcMessageCreate = none ∧
      ¬ RequestSafe regexecAll (.ofString "/srv/www") anyFile
        (.ofBuffer (bytes ('/' :: List.replicate 1020 '.'))) := by
  have hposix := posixRegexec_regexecAll
  have hdot : ¬ NameOk (.ofString "/srv/www") anyFile (targetPath (.ofString "/README")) :=
    fun hok => absurd (hok.dotted (by decide +kernel)) (by decide +kernel)
  have hlong : ¬ NameOk (.ofString "/srv/www") anyFile
      (targetPath (.ofBuffer (bytes ('/' :: List.replicate 1020 '.')))) :=
    fun hok => absurd hok.fits (by decide +kernel)
  refine ⟨by decide +kernel, mt (requestSafe_iff hposix (by decide +kernel)).mp hdot, ?_,
    mt (requestSafe_iff hposix (by decide +kernel)).mp hlong⟩
  rw [← Option.not_isSome_iff_eq_none]
  exact mt (handleHttpResponse_isSome_iff hposix (by decide +kernel) _ _).mp hdot

end LibSimple.Httpsrv
