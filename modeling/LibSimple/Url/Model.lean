import LibSimple.Support.CLang
import LibSimple.Support.PosixRegex

/-!
# The URL parser

`simple_url_parse` of `urlparser.c`.  `regexec` is a parameter that takes the
text of the expression in place of the compiled one; both expressions are
anchored and hold no letters, so `REG_ICASE` is without effect on them.
-/

namespace LibSimple.Url

open CLang PosixRegex

/-! ## The expressions -/

/-- `exp_url` -/
def expUrl : List UInt8 :=
  bytes "^(([^:/?#]+):)?(//([^/?#]*))?([^?#]*)?(\\?([^#]*))?(#(.*))?".toList

/-- `exp_authority` -/
def expAuthority : List UInt8 := bytes "^(([^@]+)@([^:]+):)?([^:]+)(:([0-9]+))?".toList

abbrev schemaSet : CharSet := .noneOf (bytes [':', '/', '?', '#'])

abbrev authoritySet : CharSet := .noneOf (bytes ['/', '?', '#'])

abbrev pathSet : CharSet := .noneOf (bytes ['?', '#'])

abbrev querySet : CharSet := .noneOf (bytes ['#'])

abbrev notAt : CharSet := .noneOf (bytes ['@'])

abbrev notColon : CharSet := .noneOf (bytes [':'])

abbrev digit : CharSet := .range 48 57

/-- A part of a URL that a mark announces. -/
def marked (mark : List UInt8) (c : CharSet) : Regex :=
  .optGroup (mark.foldr (fun x r => .seq (.one (.lit x)) r) (.group (.star c)))

/-- The schema and its colon. -/
def schemaRegex : Regex :=
  .optGroup (.seq (.group (.plus schemaSet)) (.one (.lit (charByte ':'))))

def urlRegex : Regex :=
  .seq schemaRegex
    (.seq (marked (bytes ['/', '/']) authoritySet)
      (.seq (.optGroup (.star pathSet))
        (.seq (marked (bytes ['?']) querySet) (marked (bytes ['#']) .any))))

/-- The user and the password with their marks. -/
def userRegex : Regex :=
  .seq (.group (.plus notAt)) (.seq (.one (.lit (charByte '@')))
    (.seq (.group (.plus notColon)) (.one (.lit (charByte ':')))))

def authorityRegex : Regex :=
  .seq (.optGroup userRegex)
    (.seq (.group (.plus notColon))
      (.optGroup (.seq (.one (.lit (charByte ':'))) (.group (.plus digit)))))

example : expUrl = charByte '^' :: urlRegex.text := by decide +kernel

example : expAuthority = charByte '^' :: authorityRegex.text := by decide +kernel

/-- `regexec` of the two expressions follows POSIX. -/
structure PosixRegexec (regexec : List UInt8 → List UInt8 → Option (ℕ → RegMatch)) : Prop where
  url : Implements (regexec expUrl) urlRegex
  authority : Implements (regexec expAuthority) authorityRegex

/-! ## The parser -/

/-- `my_strndup`; `none` when the size `n + 4` of its buffer overflows: `malloc` has no
such buffer, and `memset` runs over a null pointer. -/
def myStrndup (s : CStr) (n : ℤ) : Option CStr :=
  if 0 < n then
    if 0 < addInt n 4 then some (CStr.ofBuffer (s.val.take n.toNat)) else none
  else some (CStr.ofBuffer [])

/-- A string has been made, and holds these bytes. -/
def Holds (text : Option CStr) (w : List UInt8) : Prop := ∃ s, text = some s ∧ s.val = w

theorem holds_myStrndup {s : CStr} {w t : List UInt8} (hs : s.val = w ++ t)
    (hfit : w.length + 4 ≤ intMax) : Holds (myStrndup s w.length) w := by
  have hnul : (0 : UInt8) ∉ w := fun h => s.2 (hs ▸ List.mem_append_left t h)
  have hadd : addInt w.length 4 = (w.length + 4 : ℕ) := addInt_natCast hfit
  unfold myStrndup
  split_ifs with hpos hroom
  · refine ⟨_, rfl, ?_⟩
    rw [hs, Int.toNat_natCast, List.take_left, CStr.ofBuffer_val_of_notMem hnul]
  · omega
  · obtain rfl : w = [] := List.eq_nil_of_length_eq_zero (by omega)
    exact ⟨_, rfl, rfl⟩

/-- A string that `my_strndup` has made leaves room for the four bytes more. -/
theorem strlen_le_of_myStrndup {s t : CStr} {n : ℤ} (hn : n ≤ intMax)
    (h : myStrndup s n = some t) : t.strlen + 4 ≤ intMax := by
  rw [intMax_eq] at hn ⊢
  unfold myStrndup at h
  split_ifs at h with hpos hroom
  · cases h
    have htake := (CStr.strlen_ofBuffer_le (s.val.take n.toNat)).trans (List.length_take_le _ _)
    by_contra hover
    rw [addInt, wrapInt_of_gt (by omega) (by omega)] at hroom
    omega
  · cases h
    decide

/-- `my_strndup(str + subs[k].rm_so, subs[k].rm_eo - subs[k].rm_so)` -/
def substring (str : CStr) (m : RegMatch) : Option CStr :=
  myStrndup (CStr.ofBuffer (str.val.drop m.rmSo.val.toNat)) (subInt m.rmEo.val m.rmSo.val)

theorem strlen_le_of_substring {str text : CStr} {m : RegMatch}
    (h : substring str m = some text) : text.strlen + 4 ≤ intMax :=
  strlen_le_of_myStrndup (fitsInt_wrapInt _).2 h

/-- The strings of a `key_value_t`. -/
structure KeyValue where
  key : CStr
  value : CStr
  deriving DecidableEq

/-- `_parse_kv`; the length of the key goes to `my_strndup` as an `int`.  A text without
`=` gives `some none`. -/
def parseKv (p : CStr) : Option (Option KeyValue) :=
  match p.val.dropWhile (· ≠ charByte '=') with
  | [] => some none
  | _ :: value => do
      let key ← myStrndup p (wrapInt (p.val.takeWhile (· ≠ charByte '=')).length)
      return some ⟨key, CStr.ofBuffer value⟩

/-- What `strtok` returns one after another. -/
def strtok (s : CStr) (delim : UInt8) : List CStr :=
  ((s.val.splitOn delim).filter (· ≠ [])).map CStr.ofBuffer

/-- One token of `_parse_query`: a pair is put in front of the list. -/
def putPair (head : List KeyValue) (p : CStr) : Option (List KeyValue) := do
  match ← parseKv p with
  | none => return head
  | some kv => return kv :: head

/-- `_parse_query` -/
def parseQuery (query : CStr) (head : List KeyValue) : Option (List KeyValue) :=
  (strtok query (charByte '&')).foldlM putPair head

/-- One call of `strtok` on the text that the calls before it have left: the token, and
what is left behind the delimiter that ends it. -/
def strtokNext (saved : List UInt8) (delim : UInt8) : Option (CStr × List UInt8) :=
  match saved.dropWhile (· == delim) with
  | [] => none
  | c :: rest =>
      some (CStr.ofBuffer ((c :: rest).takeWhile (· ≠ delim)),
        ((c :: rest).dropWhile (· ≠ delim)).drop 1)

/-- The loop of `_parse_query` around the calls of `strtok`; `fuel` bounds their
number. -/
def parseQueryLoop : ℕ → List UInt8 → List KeyValue → Option (List KeyValue)
  | 0, _, head => some head
  | fuel + 1, saved, head =>
      match strtokNext saved (charByte '&') with
      | none => some head
      | some (p, saved) => do
          let head ← putPair head p
          parseQueryLoop fuel saved head

/-- The fields of `url_t` that come from the authority. -/
structure Authority where
  username : CStr
  passwd : CStr
  host : CStr
  port : CStr

/-- `url_t` -/
structure UrlT extends Authority where
  schema : CStr
  path : CStr
  query : CStr
  fragment : CStr
  queryPairs : List KeyValue

/-- The port when there is none in the URL. -/
def defaultPort : CStr := ⟨bytes ['8', '0'], by decide⟩

/-- The port of an authority from its submatch. -/
def portString (authority : CStr) (m : RegMatch) : Option CStr :=
  if m.rmSo.val = -1 then some defaultPort else substring authority m

variable (regexec : List UInt8 → List UInt8 → Option (ℕ → RegMatch))

/-- The second half of `simple_url_parse`. -/
def parseAuthority (authority : CStr) : Option Authority :=
  match regexec expAuthority authority.val with
  | some subs => do
      let username ← substring authority (subs 2)
      let passwd ← substring authority (subs 3)
      let host ← substring authority (subs 4)
      let port ← portString authority (subs 6)
      return ⟨username, passwd, host, port⟩
  | none => some ⟨CStr.ofBuffer [], CStr.ofBuffer [], CStr.ofBuffer [], defaultPort⟩

/-- `simple_url_parse`: `none` when a call of `my_strndup` is undefined, `some none` when
the text does not match. -/
def simpleUrlParse (str : CStr) : Option (Option UrlT) :=
  match regexec expUrl str.val with
  | none => some none
  | some subs => do
      let authority ← substring str (subs 4)
      let schema ← substring str (subs 2)
      let path ← substring str (subs 5)
      let query ← substring str (subs 7)
      let fragment ← substring str (subs 9)
      let queryPairs ← parseQuery query []
      let authority ← parseAuthority regexec authority
      return some ⟨authority, schema, path, query, fragment, queryPairs⟩

end LibSimple.Url
