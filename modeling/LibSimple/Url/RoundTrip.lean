import LibSimple.Url.Split

/-!
# Parsing what has been put together

A URL that is put together from its components is taken apart into the same
components, with the default port and empty strings for what is missing.
-/

namespace LibSimple.Url

open CLang PosixRegex

/-! ## Components -/

structure Components where
  schema : List UInt8
  /-- The user and the password. -/
  credentials : Option (List UInt8 × List UInt8)
  host : List UInt8
  port : Option (List UInt8)
  path : List UInt8
  query : Option (List UInt8)
  fragment : Option (List UInt8)

namespace Components

/-- The text of an optional component behind its mark. -/
def optText (mark : UInt8) : Option (List UInt8) → List UInt8
  | none => []
  | some w => mark :: w

/-- `user '@' passwd ':'` -/
def userText : Option (List UInt8 × List UInt8) → List UInt8
  | none => []
  | some (user, passwd) => user ++ charByte '@' :: (passwd ++ [charByte ':'])

def authorityText (c : Components) : List UInt8 :=
  userText c.credentials ++ (c.host ++ optText (charByte ':') c.port)

/-- The query and the fragment. -/
def tailText (c : Components) : List UInt8 :=
  optText (charByte '?') c.query ++ optText (charByte '#') c.fragment

def text (c : Components) : List UInt8 :=
  c.schema ++ charByte ':' :: (bytes ['/', '/'] ++ (c.authorityText ++ (c.path ++ c.tailText)))

/-- No component holds a delimiter that would end it. -/
structure WellFormed (c : Components) : Prop where
  schema_ne : c.schema ≠ []
  schema_free : ∀ x ∈ c.schema, x ∉ bytes [':', '/', '?', '#']
  credentials_ok : ∀ user passwd, c.credentials = some (user, passwd) →
    (user ≠ [] ∧ charByte '@' ∉ user) ∧ passwd ≠ [] ∧ charByte ':' ∉ passwd
  host_ne : c.host ≠ []
  host_free : ∀ x ∈ c.host, x ∉ bytes [':', '@']
  port_ok : ∀ port, c.port = some port → port ≠ [] ∧ ∀ x ∈ port, isDigit x = true
  authority_free : ∀ x ∈ c.authorityText, x ∉ bytes ['/', '?', '#']
  path_slash : c.path = [] ∨ [charByte '/'] <+: c.path
  path_free : ∀ x ∈ c.path, x ∉ bytes ['?', '#']
  query_free : ∀ query, c.query = some query → charByte '#' ∉ query

end Components

open Components

/-! ## The parts of the text -/

theorem accepts_noneOf {cs : List UInt8} {x : UInt8} :
    (CharSet.noneOf cs).accepts x = true ↔ x ∉ cs := by
  simp [CharSet.accepts]

theorem takeWhile_run {c : CharSet} {w t : List UInt8} (hw : ∀ x ∈ w, c.accepts x = true)
    (ht : StopsAt c t) :
    (w ++ t).takeWhile c.accepts = w ∧ (w ++ t).dropWhile c.accepts = t := by
  rw [List.takeWhile_append_of_pos hw, List.dropWhile_append_of_pos hw]
  cases t with
  | nil => simp
  | cons x t =>
      have hx := stopsAt_cons.mp ht
      simp [hx]

theorem takeAfter_mark {mark w t : List UInt8} {c : CharSet} (hw : ∀ x ∈ w, c.accepts x = true)
    (ht : StopsAt c t) : takeAfter mark c (mark ++ (w ++ t)) = (some w, t) := by
  obtain ⟨htake, hdrop⟩ := takeWhile_run hw ht
  rw [takeAfter, if_pos (List.prefix_append mark _), List.drop_left, htake, hdrop]

theorem takeSchema_colon {w t : List UInt8} (hne : w ≠ [])
    (hw : ∀ x ∈ w, schemaSet.accepts x = true) :
    takeSchema (w ++ charByte ':' :: t) = (some w, t) := by
  have hstop : StopsAt schemaSet (charByte ':' :: t) := stopsAt_cons.mpr (by decide)
  obtain ⟨htake, hdrop⟩ := takeWhile_run hw hstop
  rw [takeSchema, htake, hdrop, if_pos ⟨hne, List.cons_prefix_cons.mpr ⟨rfl, List.nil_prefix⟩⟩]
  rfl

theorem stopsAt_optText {c : CharSet} {mark : UInt8} (hmark : c.accepts mark = false)
    {w : Option (List UInt8)} {t : List UInt8} (ht : StopsAt c t) :
    StopsAt c (optText mark w ++ t) := by
  cases w with
  | none => exact ht
  | some w => exact stopsAt_cons.mpr hmark

theorem takeAfter_optText {mark : UInt8} {c : CharSet} {w : Option (List UInt8)}
    {t : List UInt8} (hw : ∀ v, w = some v → ∀ x ∈ v, c.accepts x = true) (ht : StopsAt c t)
    (hmark : StopsAt (.lit mark) t) :
    takeAfter [mark] c (optText mark w ++ t) = (w, t) := by
  cases w with
  | none =>
      rw [optText, List.nil_append, takeAfter, if_neg]
      rintro ⟨rest, rfl⟩
      exact absurd (stopsAt_cons.mp hmark) (by simp [CharSet.accepts])
  | some w => exact takeAfter_mark (hw w rfl) ht

theorem tailText_stops (c : Components) {set : CharSet}
    (hquery : set.accepts (charByte '?') = false) (hfragment : set.accepts (charByte '#') = false) :
    StopsAt set c.tailText := by
  refine stopsAt_optText hquery ?_
  rw [← List.append_nil (optText _ c.fragment)]
  exact stopsAt_optText hfragment (stopsAt_nil set)

theorem path_stops {c : Components} (hc : c.WellFormed) :
    StopsAt authoritySet (c.path ++ c.tailText) := by
  rcases hc.path_slash with hpath | ⟨rest, hpath⟩
  · rw [hpath]
    exact tailText_stops c (by decide) (by decide)
  · rw [← hpath]
    exact stopsAt_cons.mpr (by decide)

theorem takeAfter_query {c : Components} (hc : c.WellFormed) :
    takeAfter (bytes ['?']) querySet c.tailText =
      (c.query, optText (charByte '#') c.fragment) := by
  have hfragment : ∀ set : CharSet, set.accepts (charByte '#') = false →
      StopsAt set (optText (charByte '#') c.fragment) := by
    intro set hset
    rw [← List.append_nil (optText _ c.fragment)]
    exact stopsAt_optText hset (stopsAt_nil set)
  refine takeAfter_optText (fun v hv x hx => ?_) (hfragment _ (by decide)) (hfragment _ (by decide))
  rw [accepts_noneOf]
  intro hmark
  obtain rfl : x = charByte '#' := by simpa [bytes] using hmark
  exact hc.query_free v hv hx

theorem takeAfter_fragment (c : Components) :
    takeAfter (bytes ['#']) .any (optText (charByte '#') c.fragment) = (c.fragment, []) := by
  rw [← List.append_nil (optText _ c.fragment)]
  exact takeAfter_optText (fun _ _ _ _ => rfl) (stopsAt_nil _) (stopsAt_nil _)

theorem parts_text {c : Components} (hc : c.WellFormed) :
    parts c.text = ⟨some c.schema, some c.authorityText, c.path, c.query, c.fragment⟩ := by
  have hschema := takeSchema_colon
    (t := bytes ['/', '/'] ++ (c.authorityText ++ (c.path ++ c.tailText))) hc.schema_ne
    fun x hx => accepts_noneOf.mpr (hc.schema_free x hx)
  have hauthority : takeAfter (bytes ['/', '/']) authoritySet
      (bytes ['/', '/'] ++ (c.authorityText ++ (c.path ++ c.tailText))) =
      (some c.authorityText, c.path ++ c.tailText) :=
    takeAfter_mark (fun x hx => accepts_noneOf.mpr (hc.authority_free x hx)) (path_stops hc)
  obtain ⟨hpath, hafterPath⟩ := takeWhile_run (c := pathSet)
    (fun x hx => accepts_noneOf.mpr (hc.path_free x hx))
    (tailText_stops c (by decide) (by decide))
  have hafter₁ : afterSchema c.text =
      bytes ['/', '/'] ++ (c.authorityText ++ (c.path ++ c.tailText)) := by
    rw [afterSchema, Components.text, hschema]
  have hafter₂ : afterAuthority c.text = c.path ++ c.tailText := by
    rw [afterAuthority, hafter₁, hauthority]
  have hafter₃ : afterPath c.text = c.tailText := by
    rw [afterPath, hafter₂, hafterPath]
  have hafter₄ : afterQuery c.text = optText (charByte '#') c.fragment := by
    rw [afterQuery, hafter₃, takeAfter_query hc]
  rw [parts, hafter₁, hafter₂, hafter₃, hafter₄, hauthority, hpath, takeAfter_query hc,
    takeAfter_fragment, Components.text, hschema]

/-! ## The authority -/

theorem accepts_notAt {x : UInt8} : notAt.accepts x = true ↔ x ≠ charByte '@' := by
  simp [accepts_noneOf, bytes]

theorem accepts_notColon {x : UInt8} : notColon.accepts x = true ↔ x ≠ charByte ':' := by
  simp [accepts_noneOf, bytes]

/-- The user and the password can be read in one way only. -/
theorem only_user {user passwd t : List UInt8} (hu : user ≠ []) (hat : charByte '@' ∉ user)
    (hp : passwd ≠ []) (hcolon : charByte ':' ∉ passwd) :
    Only userRegex (user ++ charByte '@' :: (passwd ++ charByte ':' :: t))
      [some (user ++ charByte '@' :: (passwd ++ charByte ':' :: t),
          charByte '@' :: (passwd ++ charByte ':' :: t)),
        some (passwd ++ charByte ':' :: t, charByte ':' :: t)] t := by
  have hpasswd := only_plus_seq hp
    (fun y hy => accepts_notColon.mpr fun heq => hcolon (heq ▸ hy))
    (stopsAt_cons.mpr (by decide)) (notAfter_lit (by decide))
    (only_one (c := .lit (charByte ':')) (x := charByte ':') (t := t) (beq_self_eq_true _))
  exact only_plus_seq hu (fun y hy => accepts_notAt.mpr fun heq => hat (heq ▸ hy))
    (stopsAt_cons.mpr (by decide)) (notAfter_lit (by decide)).seq
    (hpasswd.one_seq (beq_self_eq_true _))

/-- A match of the user part meets an at sign. -/
theorem not_matches_user {s t : List UInt8} {g : List Capture} (hat : charByte '@' ∉ s) :
    ¬ userRegex.Matches s g t := by
  rintro ⟨_, m, _, -, hgroup, _, _, _, -, ⟨-, x, hx, rfl⟩, -⟩
  obtain rfl : x = charByte '@' := by simpa [CharSet.accepts] using hx
  exact hat (hgroup.suffix.mem List.mem_cons_self)

/-- What is left of the authority after the user part. -/
def Components.hostText (c : Components) : List UInt8 := c.host ++ optText (charByte ':') c.port

theorem at_notMem_hostText {c : Components} (hc : c.WellFormed) : charByte '@' ∉ c.hostText := by
  intro hmem
  rcases List.mem_append.mp hmem with hhost | hport
  · exact hc.host_free _ hhost (by decide)
  · cases hp : c.port with
    | none => simp [hp, optText] at hport
    | some port =>
        rw [hp] at hport
        rcases List.mem_cons.mp hport with heq | hdigit
        · exact absurd heq (by decide)
        · exact absurd ((hc.port_ok port hp).2 _ hdigit) (by decide)

/-- The user part and its groups. -/
theorem greedy_user {c : Components} (hc : c.WellFormed) {str : CStr}
    (hstr : str.val = c.authorityText) (hfit : str.strlen + 4 ≤ intMax) :
    ∃ whole user passwd,
      Greedy (.optGroup userRegex) c.authorityText [whole, user, passwd] c.hostText ∧
      Holds (substring str (.ofCapture str.val user)) ((c.credentials.map Prod.fst).getD []) ∧
      Holds (substring str (.ofCapture str.val passwd))
        ((c.credentials.map Prod.snd).getD []) := by
  cases hcred : c.credentials with
  | none =>
      refine ⟨none, none, none, ?_, substring_unmatched str, substring_unmatched str⟩
      rw [authorityText, hcred]
      exact greedy_optGroup_none fun g t => not_matches_user (at_notMem_hostText hc)
  | some credentials =>
      obtain ⟨user, passwd⟩ := credentials
      obtain ⟨⟨hu, hat⟩, hp, hcolon⟩ := hc.credentials_ok user passwd hcred
      have htext : c.authorityText =
          user ++ charByte '@' :: (passwd ++ charByte ':' :: c.hostText) := by
        rw [authorityText, hcred, userText]
        simp [hostText]
      have hgreedy := (only_user (t := c.hostText) hu hat hp hcolon).preferred.optGroup
      rw [← htext] at hgreedy
      refine ⟨_, _, _, hgreedy, ?_, ?_⟩
      · exact substring_ofCapture_of_fit hfit (hstr ▸ List.suffix_refl _) htext
      · refine substring_ofCapture_of_fit hfit ?_ rfl
        rw [hstr, htext]
        exact (List.suffix_cons _ _).trans (List.suffix_append user _)

theorem greedy_host {c : Components} (hc : c.WellFormed) :
    Greedy (.group (.plus notColon)) c.hostText
      [some (c.hostText, optText (charByte ':') c.port)] (optText (charByte ':') c.port) := by
  refine (preferred_plus hc.host_ne (fun y hy => ?_) ?_).greedy_group
  · rw [accepts_notColon]
    rintro rfl
    exact hc.host_free _ hy (by decide)
  · rw [← List.append_nil (optText _ c.port)]
    exact stopsAt_optText (by decide) (stopsAt_nil _)

/-- The port and its group. -/
theorem greedy_port {c : Components} (hc : c.WellFormed) {str : CStr}
    (hsuffix : optText (charByte ':') c.port <:+ str.val) (hfit : str.strlen + 4 ≤ intMax) :
    ∃ whole port,
      Greedy (.optGroup (.seq (.one (.lit (charByte ':'))) (.group (.plus digit))))
        (optText (charByte ':') c.port) [whole, port] [] ∧
      Holds (portString str (.ofCapture str.val port)) (c.port.getD defaultPort.val) := by
  cases hport : c.port with
  | none =>
      refine ⟨none, none, ?_, defaultPort, rfl, rfl⟩
      exact greedy_optGroup_none fun g t => not_matches_one_seq (stopsAt_nil _)
  | some port =>
      obtain ⟨hne, hdigits⟩ := hc.port_ok port hport
      have hpref : Preferred (.plus digit) (port ++ []) [] [] :=
        preferred_plus hne hdigits (stopsAt_nil _)
      rw [List.append_nil] at hpref
      refine ⟨_, _, (hpref.group.one_seq (beq_self_eq_true _)).optGroup, ?_⟩
      rw [hport] at hsuffix
      have hport' : port <:+ str.val := (List.suffix_cons _ port).trans hsuffix
      have hlen : str.val.length ≤ intMax := (Nat.le_add_right _ 4).trans hfit
      obtain ⟨hso, -⟩ :=
        RegMatch.ofCapture_some (t := []) hlen hport'.length_le (Nat.zero_le _)
      rw [portString, if_neg (by omega)]
      exact substring_ofCapture_of_fit hfit hport' (List.append_nil port).symm

section Parse

variable {regexec : List UInt8 → List UInt8 → Option (ℕ → RegMatch)}

theorem parseAuthority_text (hposix : PosixRegexec regexec) {c : Components}
    (hc : c.WellFormed) {str : CStr} (hstr : str.val = c.authorityText)
    (hfit : str.strlen + 4 ≤ intMax) :
    ∃ fields, parseAuthority regexec str = some fields ∧
      fields.username.val = (c.credentials.map Prod.fst).getD [] ∧
      fields.passwd.val = (c.credentials.map Prod.snd).getD [] ∧
      fields.host.val = c.host ∧
      fields.port.val = c.port.getD defaultPort.val := by
  have hhost : c.hostText <:+ str.val := by
    rw [hstr]
    exact List.suffix_append _ _
  have hlen : str.val.length ≤ intMax := (Nat.le_add_right _ 4).trans hfit
  obtain ⟨whole, user, passwd, huser, ⟨userStr, huserStr, huserVal⟩,
    passwdStr, hpasswdStr, hpasswdVal⟩ := greedy_user hc hstr hfit
  obtain ⟨whole', port, hport, portStr, hportStr, hportVal⟩ :=
    greedy_port hc ((List.suffix_append c.host _).trans hhost) hfit
  obtain ⟨hostStr, hhostStr, hhostVal⟩ := substring_ofCapture_of_fit hfit hhost rfl
  have hpref := (huser.seq ((greedy_host hc).seq hport)).preferred
  rw [← hstr] at hpref
  refine ⟨⟨userStr, passwdStr, hostStr, portStr⟩, ?_, huserVal, hpasswdVal, hhostVal, hportVal⟩
  rw [parseAuthority, hposix.authority.eq_of_preferred hlen hpref]
  show (do
    let username ← substring str (.ofCapture str.val user)
    let passwd ← substring str (.ofCapture str.val passwd)
    let host ← substring str (.ofCapture str.val (some (c.hostText, optText (charByte ':') c.port)))
    let port ← portString str (.ofCapture str.val port)
    return (⟨username, passwd, host, port⟩ : Authority)) = _
  rw [huserStr, hpasswdStr, hhostStr, hportStr]
  rfl

/-- The marks between the parts leave room for the four bytes more of `my_strndup`. -/
theorem text_fit {c : Components} (hc : c.WellFormed) (hlen : c.text.length ≤ intMax) :
    (parts c.text).Fit := by
  have hschema := List.length_pos_iff.mpr hc.schema_ne
  have hhost := List.length_pos_iff.mpr hc.host_ne
  have hauthority : c.host.length ≤ c.authorityText.length := by
    simp only [authorityText, List.length_append]
    omega
  have hopt : ∀ mark w, (w.getD []).length ≤ (optText mark w).length := by
    intro mark w
    cases w with
    | none => exact le_rfl
    | some w => exact Nat.le_succ _
  have hquery := hopt (charByte '?') c.query
  have hfragment := hopt (charByte '#') c.fragment
  have htext : c.text.length = c.schema.length + (c.authorityText.length + (c.path.length +
      ((optText (charByte '?') c.query).length + (optText (charByte '#') c.fragment).length)) +
      3) := by
    simp only [Components.text, tailText, bytes, List.length_append, List.length_cons,
      List.length_map, List.length_nil]
    omega
  rw [parts_text hc]
  simp only [Parts.Fit, Parts.texts, Option.getD_some, List.forall_mem_cons]
  refine ⟨by omega, by omega, by omega, by omega, by omega, fun w hw => absurd hw List.not_mem_nil⟩

/-- `simple_url_parse` takes a URL apart into the components it was put together
from. -/
theorem simpleUrlParse_text (hposix : PosixRegexec regexec) {c : Components}
    (hc : c.WellFormed) {str : CStr} (hstr : str.val = c.text) (hlen : str.strlen ≤ intMax) :
    ∃ url, simpleUrlParse regexec str = some (some url) ∧
      url.schema.val = c.schema ∧
      url.username.val = (c.credentials.map Prod.fst).getD [] ∧
      url.passwd.val = (c.credentials.map Prod.snd).getD [] ∧
      url.host.val = c.host ∧
      url.port.val = c.port.getD (bytes ['8', '0']) ∧
      url.path.val = c.path ∧
      url.query.val = c.query.getD [] ∧
      url.fragment.val = c.fragment.getD [] := by
  have hfit : (parts str.val).Fit := by
    rw [hstr]
    exact text_fit hc (hstr ▸ hlen)
  obtain ⟨url, authority, hurl, hschema, hpath, hquery, hfragment, hauthority, hparsed⟩ :=
    simpleUrlParse_parts hposix hlen hfit
  have hauthorityFit : authority.strlen + 4 ≤ intMax := by
    rw [CStr.strlen, hauthority]
    exact hfit _ (by simp [Parts.texts])
  rw [hstr, parts_text hc] at hschema hpath hquery hfragment hauthority
  obtain ⟨fields, hfields, huser, hpasswd, hhost, hport⟩ :=
    parseAuthority_text hposix hc hauthority hauthorityFit
  obtain rfl : url.toAuthority = fields := Option.some.inj (hparsed.symm.trans hfields)
  exact ⟨url, hurl, hschema, huser, hpasswd, hhost, hport, hpath, hquery, hfragment⟩

end Parse

/-- `http://me@pw:host:8080/x?q=1#end` with every component. -/
theorem simpleUrlParse_text_full :
    ∃ (str : CStr) (url : UrlT),
      str.val = bytes "http://me@pw:host:8080/x?q=1#end".toList ∧
      simpleUrlParse regexecAll str = some (some url) ∧
      url.schema.val = bytes "http".toList ∧ url.username.val = bytes "me".toList ∧
      url.passwd.val = bytes "pw".toList ∧ url.host.val = bytes "host".toList ∧
      url.port.val = bytes "8080".toList ∧ url.path.val = bytes "/x".toList ∧
      url.query.val = bytes "q=1".toList ∧ url.fragment.val = bytes "end".toList := by
  have hc : WellFormed ⟨bytes "http".toList, some (bytes "me".toList, bytes "pw".toList),
      bytes "host".toList, some (bytes "8080".toList), bytes "/x".toList,
      some (bytes "q=1".toList), some (bytes "end".toList)⟩ := {
    schema_ne := by decide +kernel
    schema_free := by decide +kernel
    credentials_ok := by
      rintro user passwd ⟨⟩
      decide +kernel
    host_ne := by decide +kernel
    host_free := by decide +kernel
    port_ok := by
      rintro port ⟨⟩
      decide +kernel
    authority_free := by decide +kernel
    path_slash := .inr ⟨bytes "x".toList, by decide +kernel⟩
    path_free := by decide +kernel
    query_free := by
      rintro query ⟨⟩
      decide +kernel }
  obtain ⟨url, hurl⟩ := @simpleUrlParse_text regexecAll posixRegexec_regexecAll _ hc
    ⟨bytes "http://me@pw:host:8080/x?q=1#end".toList, by decide +kernel⟩ (by decide +kernel)
    (by decide +kernel)
  exact ⟨_, url, rfl, hurl⟩

end LibSimple.Url
