import LibSimple.Url.Model

/-!
# The file server of `httpsrv`

`http_request` with the functions that choose the file it answers with, as they
are compiled outside Windows.  `stat` is a parameter: the mode of the file with
a name, or `none` when there is none.
-/

namespace LibSimple.Httpsrv

open CLang PosixRegex Url

/-- The size of the buffer that `http_request` allocates for the name. -/
def filenameSize : ℕ := 1024

/-- `strcat` into a buffer of `size` bytes; `none` when it writes past its end. -/
def strcat (size : ℕ) (buf s : CStr) : Option CStr :=
  if buf.strlen + s.strlen + 1 ≤ size then some (CStr.ofBuffer (buf.val ++ s.val)) else none

/-- `build_filename`: `root` and `path` behind what the buffer holds. -/
def buildFilename (buf : CStr) (size : ℕ) (root path : CStr) : Option CStr := do
  let buf ← strcat size buf root
  strcat size buf path

/-- `S_IFDIR` -/
def sIfdir : ℕ := 0o040000

/-- `S_IFMT` -/
def sIfmt : ℕ := 0o170000

/-- `is_local_file` -/
def isLocalFile (stat : CStr → Option ℕ) (filename : CStr) : Bool :=
  match stat filename with
  | some mode => if mode &&& sIfdir ≠ 0 then false else mode &&& sIfmt ≠ 0
  | none => false

/-- What `http_request` answers with. -/
inductive Answer
  | localFile (filename : CStr)
  | notFound (filename : CStr)
  deriving DecidableEq

/-- `http_request`, with the result of `root_path`; `none` when it leaves its
buffer. -/
def httpRequest (rootPath : CStr) (stat : CStr → Option ℕ) (url : UrlT) : Option Answer := do
  let filename ← buildFilename (CStr.ofBuffer []) filenameSize rootPath url.path
  if isLocalFile stat filename then some (.localFile filename) else some (.notFound filename)

/-- `handle_http` on the target of a request: `none` when an operation on the way is
undefined, `some none` when the target is no URL. -/
def handleHttp (regexec : List UInt8 → List UInt8 → Option (ℕ → RegMatch)) (rootPath : CStr)
    (stat : CStr → Option ℕ) (target : CStr) : Option (Option Answer) := do
  match ← simpleUrlParse regexec target with
  | none => some none
  | some url => some <$> httpRequest rootPath stat url

end LibSimple.Httpsrv
