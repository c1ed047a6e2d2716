import LibSimple.Url.QueryPairs

/-!
# How a URL is split

Every text is matched by the expression for a URL as a whole, and the preferred
match splits it by its delimiters: the schema ends at the first colon when
nothing but its characters is before it, the authority follows two slashes, the
query a question mark, the fragment a number sign.
-/

namespace LibSimple.Url

open CLang PosixRegex

/-! ## Parts of a text -/

/-- The text after a mark as far as the characters of `c` go, and what is left;
the whole text is left when the mark is missing. -/
def takeAfter (mark : List UInt8) (c : CharSet) (s : List UInt8) :
    Option (List UInt8) × List UInt8 :=
  if mark <+: s then
    (some ((s.drop mark.length).takeWhile c.accepts), (s.drop mark.length).dropWhile c.accepts)
  else (none, s)

/-- The characters before a colon, and what is left after it. -/
def takeSchema (s : List UInt8) : Option (List UInt8) × List UInt8 :=
  if s.takeWhile schemaSet.accepts ≠ [] ∧ [charByte ':'] <+: s.dropWhile schemaSet.accepts then
    (some (s.takeWhile schemaSet.accepts), (s.dropWhile schemaSet.accepts).drop 1)
  else (none, s)

/-- The parts of a URL. -/
structure Parts where
  schema : Option (List UInt8)
  authority : Option (List UInt8)
  path : List UInt8
  query : Option (List UInt8)
  fragment : Option (List UInt8)
  deriving DecidableEq

def afterSchema (str : List UInt8) : List UInt8 := (takeSchema str).2

def afterAuthority (str : List UInt8) : List UInt8 :=
  (takeAfter (bytes ['/', '/']) authoritySet (afterSchema str)).2

def afterPath (str : List UInt8) : List UInt8 := (afterAuthority str).dropWhile pathSet.accepts

def afterQuery (str : List UInt8) : List UInt8 :=
  (takeAfter (bytes ['?']) querySet (afterPath str)).2

def parts (str : List UInt8) : Parts where
  schema := (takeSchema str).1
  authority := (takeAfter (bytes ['/', '/']) authoritySet (afterSchema str)).1
  path := (afterAuthority str).takeWhile pathSet.accepts
  query := (takeAfter (bytes ['?']) querySet (afterPath str)).1
  fragment := (takeAfter (bytes ['#']) .any (afterQuery str)).1

example : parts (bytes "http://www.ics.uci.edu/pub/ietf/uri/#Related".toList) =
    { schema := some (bytes "http".toList)
      authority := some (bytes "www.ics.uci.edu".toList)
      path := bytes "/pub/ietf/uri/".toList
      query := none
      fragment := some (bytes "Related".toList) } := by decide +kernel

/-! ## The preferred match -/

/-- The groups of a part that a mark announces: with the mark and without it. -/
def markedCaptures (mark : List UInt8) (c : CharSet) (s : List UInt8) : List Capture :=
  if mark <+: s then
    [some (s, (takeAfter mark c s).2), some (s.drop mark.length, (takeAfter mark c s).2)]
  else [none, none]

theorem stopsAt_dropWhile (c : CharSet) (s : List UInt8) : StopsAt c (s.dropWhile c.accepts) := by
  intro x hx
  have hhead := List.head?_dropWhile_not c.accepts s
  rw [hx] at hhead
  simpa using hhead

theorem preferred_takeWhile (c : CharSet) (s : List UInt8) :
    Preferred (.star c) s [] (s.dropWhile c.accepts) := by
  have hpref := preferred_star (w := s.takeWhile c.accepts)
    (fun y hy => List.mem_takeWhile_imp hy) (stopsAt_dropWhile c s)
  rw [List.takeWhile_append_dropWhile] at hpref
  exact hpref

/-- The inside of a marked part. -/
theorem preferred_mark (mark : List UInt8) (c : CharSet) (s : List UInt8) :
    Preferred (mark.foldr (fun x r => .seq (.one (.lit x)) r) (.group (.star c))) (mark ++ s)
      [some (s, s.dropWhile c.accepts)] (s.dropWhile c.accepts) := by
  induction mark with
  | nil => exact (preferred_takeWhile c s).group
  | cons x mark ih => exact ih.one_seq (beq_self_eq_true x)

theorem prefix_of_matches_mark {mark : List UInt8} {c : CharSet} {s t : List UInt8}
    {g : List Capture}
    (h : (mark.foldr (fun x r => Regex.seq (.one (.lit x)) r) (.group (.star c))).Matches s g t) :
    mark <+: s := by
  induction mark generalizing s g t with
  | nil => exact List.nil_prefix
  | cons x mark ih =>
      obtain ⟨g₁, m, g₂, -, ⟨-, y, hy, rfl⟩, hmatch⟩ := h
      obtain rfl : y = x := by simpa [CharSet.accepts] using hy
      exact List.cons_prefix_cons.mpr ⟨rfl, ih hmatch⟩

theorem groups_mark (mark : List UInt8) (c : CharSet) :
    (mark.foldr (fun x r => Regex.seq (.one (.lit x)) r) (.group (.star c))).groups = 1 := by
  induction mark with
  | nil => rfl
  | cons x mark ih =>
      rw [List.foldr_cons, Regex.groups, ih]
      rfl

theorem greedy_marked (mark : List UInt8) (c : CharSet) (s : List UInt8) :
    Greedy (marked mark c) s (markedCaptures mark c s) (takeAfter mark c s).2 := by
  by_cases hmark : mark <+: s
  · obtain ⟨s, rfl⟩ := hmark
    have hgreedy := (preferred_mark mark c s).optGroup
    simpa [marked, markedCaptures, takeAfter] using hgreedy
  · have hgreedy := greedy_optGroup_none (s := s)
      (fun g t h => hmark (prefix_of_matches_mark (c := c) (g := g) (t := t) h))
    rw [groups_mark] at hgreedy
    rw [markedCaptures, takeAfter, if_neg hmark, if_neg hmark]
    exact hgreedy

/-- The groups of the schema. -/
def schemaCaptures (s : List UInt8) : List Capture :=
  if (takeSchema s).1.isSome then
    [some (s, (takeSchema s).2), some (s, s.dropWhile schemaSet.accepts)]
  else [none, none]

theorem greedy_schema (s : List UInt8) :
    Greedy schemaRegex s (schemaCaptures s) (takeSchema s).2 := by
  have hrun : ∀ y ∈ s.takeWhile schemaSet.accepts, schemaSet.accepts y = true :=
    fun y hy => List.mem_takeWhile_imp hy
  have hstop := stopsAt_dropWhile schemaSet s
  have hcolon : NotAfter schemaSet (.one (.lit (charByte ':'))) := notAfter_lit (by decide)
  have hs := List.takeWhile_append_dropWhile (p := schemaSet.accepts) (l := s)
  by_cases hschema : s.takeWhile schemaSet.accepts ≠ [] ∧
      [charByte ':'] <+: s.dropWhile schemaSet.accepts
  · have htake : takeSchema s = (some (s.takeWhile schemaSet.accepts),
        (s.dropWhile schemaSet.accepts).drop 1) := if_pos hschema
    obtain ⟨hne, rest, hrest⟩ := hschema
    have honly : Only (.one (.lit (charByte ':'))) (s.dropWhile schemaSet.accepts) []
        ((s.dropWhile schemaSet.accepts).drop 1) := by
      rw [← hrest]
      exact only_one (beq_self_eq_true _)
    have hgreedy := (only_plus_seq hne hrun hstop hcolon honly).preferred.optGroup
    rw [hs] at hgreedy
    rw [schemaCaptures, htake]
    exact hgreedy
  · have htake : takeSchema s = (none, s) := if_neg hschema
    rw [schemaCaptures, htake]
    refine greedy_optGroup_none fun g t hmatch => ?_
    rw [← hs] at hmatch
    refine not_matches_plus_seq hrun hstop hcolon ?_ hmatch
    by_cases hne : s.takeWhile schemaSet.accepts = []
    · exact .inl hne
    · refine .inr fun g' t' hmark => hschema ⟨hne, ?_⟩
      obtain ⟨-, x, hx, heq⟩ := hmark
      obtain rfl : x = charByte ':' := by simpa [CharSet.accepts] using hx
      exact ⟨t', heq.symm⟩

/-- The expression leaves nothing: behind the path there is a question mark, a
number sign or nothing, and behind the query a number sign or nothing. -/
theorem fragment_rest (str : List UInt8) :
    (takeAfter (bytes ['#']) .any (afterQuery str)).2 = [] := by
  have hend : ∀ s, (∀ x ∈ s.head?, x = charByte '#') →
      (takeAfter (bytes ['#']) .any s).2 = [] := by
    intro s hs
    cases s with
    | nil => rfl
    | cons x s =>
        obtain rfl := hs x rfl
        simp only [takeAfter, bytes, List.map_cons, List.map_nil, List.cons_prefix_cons,
          List.nil_prefix, and_self, if_true, List.length_singleton, List.drop_succ_cons,
          List.drop_zero]
        exact List.dropWhile_eq_nil_iff.mpr fun y _ => rfl
  apply hend
  intro x hx
  by_cases hmark : bytes ['?'] <+: afterPath str
  · rw [afterQuery, takeAfter, if_pos hmark] at hx
    simpa [CharSet.accepts, bytes] using stopsAt_dropWhile querySet _ x hx
  · rw [afterQuery, takeAfter, if_neg hmark] at hx
    have hpath : x = charByte '?' ∨ x = charByte '#' := by
      simpa [CharSet.accepts, bytes, Classical.or_iff_not_imp_left] using
        stopsAt_dropWhile pathSet _ x hx
    rcases hpath with rfl | rfl
    · obtain ⟨rest, hrest⟩ := List.head?_eq_some_iff.mp hx
      exact absurd ⟨rest, hrest.symm⟩ hmark
    · rfl

/-- The groups of a URL. -/
def urlCaptures (str : List UInt8) : List Capture :=
  schemaCaptures str ++ (markedCaptures (bytes ['/', '/']) authoritySet (afterSchema str) ++
    ([some (afterAuthority str, afterPath str)] ++
      (markedCaptures (bytes ['?']) querySet (afterPath str) ++
        markedCaptures (bytes ['#']) .any (afterQuery str))))

theorem preferred_url (str : List UInt8) : Preferred urlRegex str (urlCaptures str) [] := by
  apply Greedy.preferred
  have hpath : Greedy (.optGroup (.star pathSet)) (afterAuthority str)
      [some (afterAuthority str, afterPath str)] (afterPath str) :=
    (preferred_takeWhile pathSet (afterAuthority str)).optGroup
  have hfragment := greedy_marked (bytes ['#']) .any (afterQuery str)
  rw [fragment_rest] at hfragment
  exact (greedy_schema str).seq ((greedy_marked _ authoritySet (afterSchema str)).seq
    (hpath.seq ((greedy_marked _ querySet (afterPath str)).seq hfragment)))

/-! ## A `regexec` -/

/-- A `regexec` for the two expressions that compares all matches. -/
def regexecAll (pattern : List UInt8) : List UInt8 → Option (ℕ → RegMatch) :=
  if pattern = expUrl then execAll urlRegex else execAll authorityRegex

theorem posixRegexec_regexecAll : PosixRegexec regexecAll where
  url := by
    rw [regexecAll, if_pos rfl]
    exact implements_execAll urlRegex
  authority := by
    rw [regexecAll, if_neg (by decide +kernel)]
    exact implements_execAll authorityRegex

/-! ## The fields -/

theorem suffix_notMem {s t : List UInt8} {x : UInt8} (hs : s <:+ t) (hx : x ∉ t) : x ∉ s :=
  fun h => hx (hs.mem h)

/-- The text of a group. -/
theorem substring_ofCapture {str : CStr} (hlen : str.strlen ≤ intMax) {s t w : List UInt8}
    (hs : s <:+ str.val) (hw : s = w ++ t) (hfit : w.length + 4 ≤ intMax) :
    Holds (substring str (.ofCapture str.val (some (s, t)))) w := by
  have hle := hs.length_le
  have ht : t.length ≤ s.length := by
    rw [hw, List.length_append]
    omega
  obtain ⟨hso, heo⟩ := RegMatch.ofCapture_some hlen hle (ht.trans hle)
  have hdrop : str.val.drop (str.val.length - s.length) = s :=
    (List.suffix_iff_eq_drop.mp hs).symm
  have hlen' : str.val.length ≤ intMax := hlen
  have hsub : subInt ((str.val.length - t.length : ℕ) : ℤ) ((str.val.length - s.length : ℕ) : ℤ) =
      w.length := by
    have hlength : s.length = w.length + t.length := by rw [hw, List.length_append]
    rw [subInt_natCast (show str.val.length - s.length ≤ str.val.length - t.length by omega)
      ((Nat.sub_le _ _).trans hlen')]
    congr 1
    omega
  rw [substring, hso, heo, Int.toNat_natCast, hdrop, hsub]
  exact holds_myStrndup ((CStr.ofBuffer_val_of_notMem (suffix_notMem hs str.2)).trans hw) hfit

/-- In a text that is not too long no group is. -/
theorem substring_ofCapture_of_fit {str : CStr} (hstr : str.strlen + 4 ≤ intMax)
    {s t w : List UInt8} (hs : s <:+ str.val) (hw : s = w ++ t) :
    Holds (substring str (.ofCapture str.val (some (s, t)))) w := by
  have hle : s.length ≤ str.strlen := hs.length_le
  have hlength : s.length = w.length + t.length := by rw [hw, List.length_append]
  exact substring_ofCapture (by omega) hs hw (by omega)

theorem substring_unmatched (str : CStr) : Holds (substring str .unmatched) [] :=
  ⟨_, rfl, rfl⟩

/-- No group of a match is too long for `my_strndup` in a text that is not. -/
theorem exists_substring {str : CStr} (hfit : str.strlen + 4 ≤ intMax) {r : Regex}
    {g : List Capture} {t : List UInt8} (h : r.Matches str.val g t) (k : ℕ) :
    ∃ w, Holds (substring str (regMatches str.val g t k)) w := by
  have hwhole : (Regex.group r).Matches str.val (some (str.val, t) :: g) t := ⟨g, rfl, h⟩
  cases hk : (some (str.val, t) :: g)[k]? with
  | none =>
      rw [regMatches, hk]
      exact ⟨_, substring_unmatched str⟩
  | some c =>
      rw [regMatches, hk]
      cases c with
      | none => exact ⟨_, substring_unmatched str⟩
      | some c =>
          obtain ⟨a, b⟩ := c
          obtain ⟨ha, w, hw⟩ := hwhole.suffix_of_mem (List.mem_of_getElem? hk)
          exact ⟨w, substring_ofCapture_of_fit hfit ha hw.symm⟩

theorem exists_portString {str : CStr} (hfit : str.strlen + 4 ≤ intMax) {r : Regex}
    {g : List Capture} {t : List UInt8} (h : r.Matches str.val g t) (k : ℕ) :
    ∃ port, portString str (regMatches str.val g t k) = some port := by
  obtain ⟨-, port, hport, -⟩ := exists_substring hfit h k
  rw [portString]
  split_ifs
  · exact ⟨defaultPort, rfl⟩
  · exact ⟨port, hport⟩

theorem markedCaptures_eq (mark : List UInt8) (c : CharSet) {str : CStr}
    (hlen : str.strlen ≤ intMax) {s : List UInt8} (hs : s <:+ str.val)
    (hfit : ((takeAfter mark c s).1.getD []).length + 4 ≤ intMax) :
    ∃ whole inner, markedCaptures mark c s = [whole, inner] ∧
      Holds (substring str (.ofCapture str.val inner)) ((takeAfter mark c s).1.getD []) := by
  unfold markedCaptures
  rw [takeAfter] at hfit ⊢
  split_ifs at hfit ⊢ with hmark
  · refine ⟨_, _, rfl, ?_⟩
    exact substring_ofCapture hlen ((List.drop_suffix _ _).trans hs)
      List.takeWhile_append_dropWhile.symm hfit
  · exact ⟨_, _, rfl, substring_unmatched str⟩

theorem schemaCaptures_eq {str : CStr} (hlen : str.strlen ≤ intMax)
    (hfit : ((takeSchema str.val).1.getD []).length + 4 ≤ intMax) :
    ∃ whole inner, schemaCaptures str.val = [whole, inner] ∧
      Holds (substring str (.ofCapture str.val inner)) ((takeSchema str.val).1.getD []) := by
  by_cases hschema : str.val.takeWhile schemaSet.accepts ≠ [] ∧
      [charByte ':'] <+: str.val.dropWhile schemaSet.accepts
  · rw [takeSchema, if_pos hschema] at hfit
    rw [schemaCaptures, takeSchema, if_pos hschema]
    refine ⟨_, _, rfl, ?_⟩
    exact substring_ofCapture hlen (List.suffix_refl _) List.takeWhile_append_dropWhile.symm hfit
  · rw [schemaCaptures, takeSchema, if_neg hschema]
    exact ⟨_, _, rfl, substring_unmatched str⟩

/-! ## The whole text -/

/-- The texts of the parts, empty for a part that is missing. -/
def Parts.texts (p : Parts) : List (List UInt8) :=
  [p.schema.getD [], p.authority.getD [], p.path, p.query.getD [], p.fragment.getD []]

/-- `my_strndup` can make a string of every part. -/
def Parts.Fit (p : Parts) : Prop := ∀ w ∈ p.texts, w.length + 4 ≤ intMax

theorem afterSchema_suffix (str : List UInt8) : afterSchema str <:+ str :=
  (greedy_schema str).isMatch.suffix

theorem afterAuthority_suffix (str : List UInt8) : afterAuthority str <:+ str :=
  (greedy_marked _ authoritySet _).isMatch.suffix.trans (afterSchema_suffix str)

theorem afterPath_suffix (str : List UInt8) : afterPath str <:+ str :=
  (List.dropWhile_suffix _).trans (afterAuthority_suffix str)

theorem afterQuery_suffix (str : List UInt8) : afterQuery str <:+ str :=
  (greedy_marked _ querySet _).isMatch.suffix.trans (afterPath_suffix str)

theorem length_takeAfter_le (mark : List UInt8) (c : CharSet) (s : List UInt8) :
    ((takeAfter mark c s).1.getD []).length ≤ s.length := by
  rw [takeAfter]
  split_ifs
  · exact (List.takeWhile_prefix _).length_le.trans (List.drop_suffix _ _).length_le
  · exact Nat.zero_le _

theorem length_takeSchema_le (s : List UInt8) : ((takeSchema s).1.getD []).length ≤ s.length := by
  rw [takeSchema]
  split_ifs
  · exact (List.takeWhile_prefix _).length_le
  · exact Nat.zero_le _

/-- No part is longer than the text. -/
theorem parts_fit {str : CStr} (h : str.strlen + 4 ≤ intMax) : (parts str.val).Fit := by
  have hfit : ∀ {w s : List UInt8}, w.length ≤ s.length → s <:+ str.val →
      w.length + 4 ≤ intMax := by
    intro w s hw hs
    have hlen : w.length ≤ str.strlen := hw.trans hs.length_le
    omega
  simp only [Parts.Fit, Parts.texts, parts, List.forall_mem_cons]
  exact ⟨hfit (length_takeSchema_le _) List.suffix_rfl,
    hfit (length_takeAfter_le _ _ _) (afterSchema_suffix _),
    hfit (List.takeWhile_prefix _).length_le (afterAuthority_suffix _),
    hfit (length_takeAfter_le _ _ _) (afterPath_suffix _),
    hfit (length_takeAfter_le _ _ _) (afterQuery_suffix _),
    fun w hw => absurd hw List.not_mem_nil⟩

section Fields

variable {regexec : List UInt8 → List UInt8 → Option (ℕ → RegMatch)}

theorem exists_parseAuthority (hposix : Implements (regexec expAuthority) authorityRegex)
    {authority : CStr} (hfit : authority.strlen + 4 ≤ intMax) :
    ∃ fields, parseAuthority regexec authority = some fields := by
  rw [parseAuthority]
  cases hexec : regexec expAuthority authority.val with
  | none => exact ⟨_, rfl⟩
  | some subs =>
      have hlen : authority.val.length ≤ intMax := (Nat.le_add_right _ 4).trans hfit
      obtain ⟨g, t, hbest, rfl⟩ := hposix.best _ _ hlen hexec
      obtain ⟨-, username, husername, -⟩ := exists_substring hfit hbest.isMatch 2
      obtain ⟨-, passwd, hpasswd, -⟩ := exists_substring hfit hbest.isMatch 3
      obtain ⟨-, host, hhost, -⟩ := exists_substring hfit hbest.isMatch 4
      obtain ⟨port, hport⟩ := exists_portString hfit hbest.isMatch 6
      dsimp only
      rw [husername, hpasswd, hhost, hport]
      exact ⟨_, rfl⟩

/-- `simple_url_parse` returns the parts of the text, for every text whose length is an
`int` and whose parts it can make strings of. -/
theorem simpleUrlParse_parts (hposix : PosixRegexec regexec) {str : CStr}
    (hlen : str.strlen ≤ intMax) (hfit : (parts str.val).Fit) :
    ∃ url authority, simpleUrlParse regexec str = some (some url) ∧
      url.schema.val = (parts str.val).schema.getD [] ∧
      url.path.val = (parts str.val).path ∧
      url.query.val = (parts str.val).query.getD [] ∧
      url.fragment.val = (parts str.val).fragment.getD [] ∧
      authority.val = (parts str.val).authority.getD [] ∧
      parseAuthority regexec authority = some url.toAuthority := by
  have hexec := hposix.url.eq_of_preferred hlen (preferred_url str.val)
  obtain ⟨schema₀, schema, hschema, hschemaText⟩ :=
    schemaCaptures_eq hlen (hfit _ (by simp [Parts.texts, parts]))
  obtain ⟨authority₀, authority, hauthority, hauthorityText⟩ :=
    markedCaptures_eq (bytes ['/', '/']) authoritySet hlen (afterSchema_suffix _)
      (hfit _ (by simp [Parts.texts, parts]))
  obtain ⟨query₀, query, hquery, hqueryText⟩ :=
    markedCaptures_eq (bytes ['?']) querySet hlen (afterPath_suffix _)
      (hfit _ (by simp [Parts.texts, parts]))
  obtain ⟨fragment₀, fragment, hfragment, hfragmentText⟩ :=
    markedCaptures_eq (bytes ['#']) .any hlen (afterQuery_suffix _)
      (hfit _ (by simp [Parts.texts, parts]))
  have hpath : Holds (substring str (.ofCapture str.val
      (some (afterAuthority str.val, afterPath str.val)))) (parts str.val).path :=
    substring_ofCapture hlen (afterAuthority_suffix _) List.takeWhile_append_dropWhile.symm
      (hfit _ (by simp [Parts.texts]))
  have hcaptures : urlCaptures str.val = [schema₀, schema, authority₀, authority,
      some (afterAuthority str.val, afterPath str.val), query₀, query, fragment₀, fragment] := by
    rw [urlCaptures, hschema, hauthority, hquery, hfragment]
    rfl
  rw [hcaptures] at hexec
  obtain ⟨schemaStr, hschemaStr, hschemaVal⟩ := hschemaText
  obtain ⟨authorityStr, hauthorityStr, hauthorityVal⟩ := hauthorityText
  obtain ⟨pathStr, hpathStr, hpathVal⟩ := hpath
  obtain ⟨queryStr, hqueryStr, hqueryVal⟩ := hqueryText
  obtain ⟨fragmentStr, hfragmentStr, hfragmentVal⟩ := hfragmentText
  obtain ⟨pairs, hpairs⟩ := exists_parseQuery (strlen_le_of_substring hqueryStr) []
  obtain ⟨fields, hfields⟩ :=
    exists_parseAuthority hposix.authority (strlen_le_of_substring hauthorityStr)
  refine ⟨⟨fields, schemaStr, pathStr, queryStr, fragmentStr, pairs⟩, authorityStr, ?_,
    hschemaVal, hpathVal, hqueryVal, hfragmentVal, hauthorityVal, hfields⟩
  rw [simpleUrlParse, hexec]
  show (do
    let authority ← substring str (.ofCapture str.val authority)
    let schema ← substring str (.ofCapture str.val schema)
    let path ← substring str (.ofCapture str.val
      (some (afterAuthority str.val, afterPath str.val)))
    let query ← substring str (.ofCapture str.val query)
    let fragment ← substring str (.ofCapture str.val fragment)
    let queryPairs ← parseQuery query []
    let authority ← parseAuthority regexec authority
    return some (⟨authority, schema, path, query, fragment, queryPairs⟩ : UrlT)) = _
  rw [hauthorityStr, hschemaStr, hpathStr, hqueryStr, hfragmentStr]
  simp only [Option.bind_eq_bind, Option.bind_some, hpairs, hfields]
  rfl

end Fields

end LibSimple.Url
