import LibSimple.Http.StartLine
import LibSimple.Httpsrv.Model
import LibSimple.Support.PathWalk
import LibSimple.Url.Split

/-!
# Which files a request reaches

The name of a file is the root directory followed by the path of the URL, as it
came from the peer.  Read as a walk in the directory tree, the path may leave
the root directory; this module says exactly when it ends outside.
-/

namespace LibSimple.Httpsrv

open CLang PosixRegex Url PathWalk Http

/-! ## Names -/

abbrev slash : UInt8 := charByte '/'

def dot : List UInt8 := [charByte '.']

def dotdot : List UInt8 := [charByte '.', charByte '.']

/-- A name in a directory. -/
structure Name where
  val : List UInt8
  ne_nil : val ≠ []
  no_slash : slash ∉ val
  no_nul : (0 : UInt8) ∉ val
  ne_dot : val ≠ dot
  ne_dotdot : val ≠ dotdot

/-- An absolute normalised directory: the names that lead to it. -/
abbrev Root := List Name

/-- The text of a directory behind its parent. -/
def rootBytes (root : Root) : List UInt8 := root.flatMap fun name => slash :: name.val

/-- The path of a directory. -/
def rootText (root : Root) : List UInt8 := if root = [] then [slash] else rootBytes root

/-- What a component of a path does. -/
def component (s : List UInt8) : Move (List UInt8) :=
  if s = [] ∨ s = dot then .stay else if s = dotdot then .up else .down s

/-- The components of a path. -/
def components (text : List UInt8) : List (Move (List UInt8)) :=
  (text.splitOn slash).map component

/-- Where a path leads when no link is on the way. -/
def resolve (text : List UInt8) : List (List UInt8) := walk [] (components text)

theorem components_append_slash (s t : List UInt8) :
    components (s ++ slash :: t) = components s ++ components t := by
  rw [components, List.splitOn_append_cons_self, List.map_append]
  rfl

theorem components_of_notMem {s : List UInt8} (h : slash ∉ s) : components s = [component s] := by
  rw [components, List.splitOn_eq_singleton h]
  rfl

theorem component_name (name : Name) : component name.val = .down name.val := by
  rw [component, if_neg (by simp [name.ne_nil, name.ne_dot]), if_neg name.ne_dotdot]

theorem rootBytes_snoc (root : Root) (name : Name) :
    rootBytes (root ++ [name]) = rootBytes root ++ slash :: name.val := by
  simp [rootBytes]

/-- A directory leads to its names. -/
theorem walk_rootBytes (root : Root) :
    walk [] (components (rootBytes root)) = root.map Name.val := by
  induction root using List.reverseRecOn with
  | nil => rfl
  | append_singleton root name ih =>
      rw [rootBytes_snoc, components_append_slash, walk_append, ih,
        components_of_notMem name.no_slash, component_name, List.map_append]
      rfl

/-! ## The path of a URL as a walk -/

/-- The walk from the root directory that the path of a URL describes.  A path
that does not begin with a slash goes on with the last name of the root. -/
def pathMoves (root : Root) (path : List UInt8) : List (Move (List UInt8)) :=
  if path = [] ∨ [slash] <+: path then components path
  else
    match root.getLast? with
    | none => components path
    | some last => .up :: components (last.val ++ path)

/-- The walk stays in the root directory: it goes down again by the names by
which it went up. -/
def Stays (root : Root) (path : List UInt8) : Prop :=
  (root.map Name.val).drop (root.length - (net (pathMoves root path)).1) <+:
    (net (pathMoves root path)).2

instance (root : Root) (path : List UInt8) : Decidable (Stays root path) :=
  inferInstanceAs (Decidable (_ <+: _))

/-- The name of a file leads where the walk ends. -/
theorem resolve_rootText {root : Root} (hroot : root ≠ []) (path : List UInt8) :
    resolve (rootText root ++ path) = walk (root.map Name.val) (pathMoves root path) := by
  rw [rootText, if_neg hroot, resolve, pathMoves]
  split_ifs with hpath
  · rcases hpath with rfl | ⟨path, rfl⟩
    · rw [List.append_nil, walk_rootBytes]
      rfl
    · have hskip : components (slash :: path) = .stay :: components path :=
        components_append_slash [] path
      rw [List.singleton_append, components_append_slash, walk_append, walk_rootBytes, hskip]
      rfl
  · obtain ⟨init, last, rfl⟩ : ∃ init last, root = init ++ [last] :=
      ⟨_, _, (List.dropLast_append_getLast hroot).symm⟩
    rw [List.getLast?_concat, rootBytes_snoc, List.append_assoc, List.cons_append,
      components_append_slash, walk_append, walk_rootBytes, List.map_append]
    -- going up from the root undoes its last name, which is glued to the path
    have hup : move (init.map Name.val ++ [last.val]) .up = init.map Name.val :=
      List.dropLast_concat
    show _ = walk (move (init.map Name.val ++ [last.val]) .up) _
    rw [hup]

theorem inside_iff (root : Root) (path : List UInt8) :
    root.map Name.val <+: resolve (rootText root ++ path) ↔ Stays root path := by
  by_cases hroot : root = []
  · subst hroot
    exact iff_of_true List.nil_prefix (by simp [Stays])
  · rw [resolve_rootText hroot, prefix_walk_iff, List.length_map]
    exact Iff.rfl

/-! ## Requests -/

theorem nul_notMem_rootText (root : Root) : (0 : UInt8) ∉ rootText root := by
  unfold rootText
  split_ifs with hroot
  · decide
  · intro hmem
    obtain ⟨name, -, hname⟩ := List.mem_flatMap.mp hmem
    rcases List.mem_cons.mp hname with hslash | hname
    · exact absurd hslash (by decide)
    · exact name.no_nul hname

/-- `root_path` when the server runs in this directory. -/
def rootPath (root : Root) : CStr := CStr.ofBuffer (rootText root)

@[simp] theorem rootPath_val (root : Root) : (rootPath root).val = rootText root :=
  CStr.ofBuffer_val_of_notMem (nul_notMem_rootText root)

theorem strcat_val {size : ℕ} {buf s filename : CStr} (h : strcat size buf s = some filename) :
    filename.val = buf.val ++ s.val := by
  unfold strcat at h
  split_ifs at h with hfits
  obtain rfl := Option.some.inj h
  apply CStr.ofBuffer_val_of_notMem
  intro hmem
  exact (List.mem_append.mp hmem).elim buf.2 s.2

theorem buildFilename_val {buf : CStr} {size : ℕ} {root path filename : CStr}
    (h : buildFilename buf size root path = some filename) :
    filename.val = buf.val ++ root.val ++ path.val := by
  obtain ⟨buf', hroot, hpath⟩ := Option.bind_eq_some_iff.mp h
  rw [strcat_val hpath, strcat_val hroot]

/-- The target of a request that the parser makes of these bytes. -/
def delivered (data : List UInt8) : Option CStr :=
  match httpcParserParse none data with
  | .ok (s, _) => if s.pd.state = .complete then s.msg.startLine.p2 else none
  | .error _ => none

/-- The parser delivers no target that `simple_url_parse` cannot take apart. -/
theorem strlen_delivered_le {data : List UInt8} {target : CStr}
    (h : delivered data = some target) : target.strlen + 4 ≤ intMax := by
  rw [delivered] at h
  cases hparse : httpcParserParse none data with
  | error f =>
      rw [hparse] at h
      cases h
  | ok r =>
      obtain ⟨s, used⟩ := r
      rw [hparse] at h
      dsimp only at h
      split_ifs at h with hdone
      exact (targetFits_of_parse hparse).strlen_le h

/-- The path of a request target. -/
def targetPath (target : CStr) : CStr := CStr.ofBuffer (parts target.val).path

section Serve

variable {regexec : List UInt8 → List UInt8 → Option (ℕ → RegMatch)} {root : Root}
variable {stat : CStr → Option ℕ} {target filename : CStr}

/-- The request is answered with this file. -/
def Serves (regexec : List UInt8 → List UInt8 → Option (ℕ → RegMatch)) (root : Root)
    (stat : CStr → Option ℕ) (target filename : CStr) : Prop :=
  handleHttp regexec (rootPath root) stat target = some (some (.localFile filename))

/-- Every file that a request is answered with lies in the root directory. -/
def Contained (regexec : List UInt8 → List UInt8 → Option (ℕ → RegMatch)) (root : Root)
    (stat : CStr → Option ℕ) (target : CStr) : Prop :=
  ∀ filename, Serves regexec root stat target filename →
    root.map Name.val <+: resolve filename.val

/-- The path of the URL is that of its text. -/
theorem simpleUrlParse_path (hposix : PosixRegexec regexec)
    (htarget : target.strlen + 4 ≤ intMax) :
    ∃ url, simpleUrlParse regexec target = some (some url) ∧ url.path = targetPath target := by
  obtain ⟨url, authority, hurl, -, hpath, -⟩ :=
    simpleUrlParse_parts hposix (by omega) (parts_fit htarget)
  refine ⟨url, hurl, ?_⟩
  rw [targetPath, ← hpath, CStr.ofBuffer_val]

theorem httpRequest_localFile_iff {rootPath : CStr} {url : UrlT} :
    httpRequest rootPath stat url = some (.localFile filename) ↔
      buildFilename (CStr.ofBuffer []) filenameSize rootPath url.path = some filename ∧
        isLocalFile stat filename = true := by
  unfold httpRequest
  cases buildFilename (CStr.ofBuffer []) filenameSize rootPath url.path with
  | none => simp
  | some name =>
      by_cases hfile : isLocalFile stat name = true
      · simp only [Option.bind_eq_bind, Option.bind_some, hfile, if_true, Option.some.injEq,
          Answer.localFile.injEq]
        constructor
        · rintro rfl
          exact ⟨rfl, hfile⟩
        · exact fun h => h.1
      · refine iff_of_false (by simp [hfile]) ?_
        rintro ⟨heq, hfile'⟩
        exact hfile (Option.some.inj heq ▸ hfile')

/-- The file is the root followed by the path of the target. -/
theorem serves_iff (hposix : PosixRegexec regexec) (htarget : target.strlen + 4 ≤ intMax) :
    Serves regexec root stat target filename ↔
      buildFilename (CStr.ofBuffer []) filenameSize (rootPath root) (targetPath target) =
        some filename ∧ isLocalFile stat filename = true := by
  obtain ⟨url, hurl, hpath⟩ := simpleUrlParse_path hposix htarget
  rw [← hpath, ← httpRequest_localFile_iff, Serves, handleHttp, hurl]
  cases hanswer : httpRequest (rootPath root) stat url with
  | none => simp [hanswer]
  | some answer => simp [hanswer]

/-- The file leads where the walk ends. -/
theorem inside_filename_iff
    (h : buildFilename (CStr.ofBuffer []) filenameSize (rootPath root) (targetPath target) =
      some filename) :
    root.map Name.val <+: resolve filename.val ↔ Stays root (targetPath target).val := by
  have hval := buildFilename_val h
  rw [rootPath_val] at hval
  rw [hval]
  exact inside_iff root (targetPath target).val

/-- A request stays in the root directory exactly when the path of its target
does, unless there is no file to answer with. -/
theorem contained_iff (hposix : PosixRegexec regexec) (root : Root) (stat : CStr → Option ℕ)
    (htarget : target.strlen + 4 ≤ intMax) :
    Contained regexec root stat target ↔
      (∀ filename, buildFilename (CStr.ofBuffer []) filenameSize (rootPath root)
        (targetPath target) = some filename → isLocalFile stat filename = false) ∨
      Stays root (targetPath target).val := by
  constructor
  · intro hcontained
    rw [or_iff_not_imp_left]
    intro hfile
    push Not at hfile
    obtain ⟨filename, hbuild, hlocal⟩ := hfile
    have hserves := (serves_iff hposix htarget).mpr ⟨hbuild, by simpa using hlocal⟩
    exact (inside_filename_iff hbuild).mp (hcontained filename hserves)
  · intro h filename hserves
    obtain ⟨hbuild, hlocal⟩ := (serves_iff hposix htarget).mp hserves
    rcases h with hnone | hstays
    · rw [hnone filename hbuild] at hlocal
      cases hlocal
    · exact (inside_filename_iff hbuild).mpr hstays

end Serve

/-- The directory `/srv/www`. -/
def srvWww : Root :=
  [⟨bytes ['s', 'r', 'v'], by decide, by decide, by decide, by decide, by decide⟩,
    ⟨bytes ['w', 'w', 'w'], by decide, by decide, by decide, by decide, by decide⟩]

/-- `/a/../b` goes down before it goes up. -/
theorem contained_iff_inner :
    ∃ target : CStr, target.val = bytes "/a/../b".toList ∧
      Contained regexecAll srvWww (fun _ => some 0o100644) target :=
  ⟨⟨bytes "/a/../b".toList, by decide +kernel⟩, rfl,
    (contained_iff posixRegexec_regexecAll srvWww _ (by decide +kernel)).mpr
      (.inr (by decide +kernel))⟩

/-- A file system whose only file is `/srv/x`, by the name that the server builds. -/
def fileBeside (name : CStr) : Option ℕ :=
  if name.val = bytes "/srv/www/../x".toList then some 0o100644 else none

/-- With `/../x` the peer names a file beside the root directory. -/
theorem not_contained_parent :
    ∃ target : CStr, target.val = bytes "/../x".toList ∧
      ¬ Contained regexecAll srvWww fileBeside target := by
  refine ⟨⟨bytes "/../x".toList, by decide +kernel⟩, rfl, fun hcontained => ?_⟩
  have hserves : Serves regexecAll srvWww fileBeside ⟨bytes "/../x".toList, by decide +kernel⟩
      (CStr.ofBuffer (bytes "/srv/www/../x".toList)) :=
    (serves_iff posixRegexec_regexecAll (by decide +kernel)).mpr
      ⟨by decide +kernel, by decide +kernel⟩
  have hinside := hcontained _ hserves
  revert hinside
  decide +kernel

end LibSimple.Httpsrv
