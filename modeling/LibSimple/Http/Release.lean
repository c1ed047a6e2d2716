import LibSimple.Http.HeaderStore

/-!
# The end of a message

`httpc_Message_release` on the nodes in memory, behind any calls on the message.  Each node
that `malloc` has handed out for it has been freed then, and the rest of the memory is as
it was before the message was created.
-/

namespace LibSimple.Http.HeaderMemory

open CLang LinkedRing ListHead

variable {A : Type} [DecidableEq A]

/-- One round of the loop in `httpc_Message_release`. -/
def releaseRound (pos : A) (mem : Memory A) : Option (Memory A) := do
  let _ ← mem.nodes pos
  let mem := { mem with nodes := Function.update mem.nodes pos (some ⟨none, none⟩) }
  let heads ← listDel mem.heads pos
  some (free { mem with heads := heads } pos)

/-- `httpc_Message_release`; the message goes with its header list. -/
def httpcMessageRelease (headers : A) (mem : Memory A) (fuel : ℕ) : Option (Memory A) := do
  let mem ← listForEachSafe Memory.heads headers releaseRound mem fuel
  some { free mem headers with headerCnt := 0 }

/-! ## What belongs to the message -/

/-- The memory is as it was at the start, but for the message and the nodes of its
headers, which were not alive then. -/
structure Owns (start : Memory A) (headers : A) (mem : Memory A) (hs : List (A × HttpHeader)) :
    Prop extends Stores headers mem hs where
  fresh : ∀ x ∈ headers :: hs.map Prod.fst, start.heads x = none
  same : SameOutside (headers :: hs.map Prod.fst) start.heads mem.heads

variable {start mem mem' : Memory A} {headers n : A} {junk : Links A} {key value : CStr}
  {hs kept ahead : List (A × HttpHeader)} {p : A × HttpHeader}

theorem create_owns (h : httpcMessageCreate headers junk start = some mem) :
    Owns start headers mem [] := by
  have hfree := free_of_create h
  have hlive : (Function.update start.heads headers (some junk) headers).isSome := by simp
  obtain ⟨heads, hinit, -, hsame⟩ := listInit_ring hlive
  obtain ⟨mem₁, hmem₁, hstores, -⟩ := create_stores hfree
  obtain rfl := Option.some.inj (hmem₁.symm.trans h)
  refine ⟨hstores, fun x hx => ?_, fun x hx => ?_⟩
  · rw [List.mem_singleton.mp hx]
    exact hfree
  · have hheads : mem₁.heads = heads := by
      rw [httpcMessageCreate, malloc_of_free hfree, Option.bind_eq_bind, Option.bind_some] at h
      dsimp only at h
      rw [hinit] at h
      cases h
      rfl
    rw [hheads, hsame x hx]
    exact Function.update_of_ne (fun heq => hx (List.mem_singleton.mpr heq)) _ _

/-- Adding a header touches the links of the message and the new node only. -/
theorem setValue_same (hstores : Stores headers mem hs)
    (h : httpcMessageSetValue headers n junk key value mem = some mem') :
    SameOutside (n :: headers :: hs.map Prod.fst) mem.heads mem'.heads := by
  have hfree := free_of_setValue h
  have hn := hstores.notMem hfree
  have hring : RingAt (Function.update mem.heads n (some junk)) headers (hs.map Prod.fst) := by
    refine hstores.ring.congr fun x hx => ?_
    have hxn : x ≠ n := fun heq => hn (heq ▸ hx)
    rw [Function.update_of_ne hxn]
  have hlive : (Function.update mem.heads n (some junk) n).isSome := by simp
  obtain ⟨heads, hadd, -, hsame⟩ := listAdd_ring hring hlive hn
  have hheads : mem'.heads = heads := by
    rw [httpcMessageSetValue, makeKvpair, malloc_of_free hfree] at h
    simp only [Option.bind_eq_bind, Option.bind_some, hadd, Option.some_inj] at h
    rw [← h]
  intro x hx
  rw [hheads, hsame x hx]
  exact Function.update_of_ne (List.ne_of_not_mem_cons hx) _ _

theorem setValue_owns (howns : Owns start headers mem hs)
    (h : httpcMessageSetValue headers n junk key value mem = some mem') :
    Owns start headers mem' ((n, ⟨key, value⟩) :: hs) := by
  have hfree := free_of_setValue h
  have hn := howns.notMem hfree
  obtain ⟨mem₁, hmem₁, hstores, -⟩ := setValue_stores howns.toStores hfree
  obtain rfl := Option.some.inj (hmem₁.symm.trans h)
  have hsame := setValue_same howns.toStores h
  refine ⟨hstores, fun x hx => ?_, fun x hx => ?_⟩
  · by_cases hxn : x = n
    · rw [hxn, ← howns.same n hn]
      exact hfree
    · exact howns.fresh x (by simpa [hxn] using hx)
  · rw [List.map_cons] at hx
    have hx' : x ∉ n :: headers :: hs.map Prod.fst := fun hmem =>
      hx ((List.Perm.swap headers n _).mem_iff.mp hmem)
    rw [hsame x hx']
    exact howns.same x fun hmem => hx' (List.mem_cons_of_mem n hmem)

/-- The node of a header is taken out of the list and freed. -/
def removeHeader (pos : A) (mem : Memory A) : Option (Memory A) := do
  let heads ← listDel mem.heads pos
  some (free { mem with
    heads := heads, nodes := Function.update mem.nodes pos (some ⟨none, none⟩) } pos)

theorem Owns.remove (howns : Owns start headers mem (kept ++ p :: ahead)) :
    ∃ mem', removeHeader p.1 mem = some mem' ∧ Owns start headers mem' (kept ++ ahead) := by
  obtain ⟨heads, hdel, hstores⟩ := howns.toStores.remove
  have hring : RingAt mem.heads headers (kept.map Prod.fst ++ p.1 :: ahead.map Prod.fst) := by
    simpa using howns.ring
  obtain ⟨heads', hdel', -, hsame⟩ := listDel_ring hring
  obtain rfl := Option.some.inj (hdel'.symm.trans hdel)
  refine ⟨_, by rw [removeHeader, hdel]; rfl, hstores, fun x hx => ?_, fun x hx => ?_⟩
  · refine howns.fresh x ?_
    simp only [List.map_append, List.map_cons, List.mem_cons, List.mem_append] at hx ⊢
    tauto
  · by_cases hxp : x = p.1
    · rw [hxp]
      exact (Function.update_self p.1 none heads').trans
        (howns.fresh p.1 (by simp)).symm
    · refine (Function.update_of_ne hxp none heads').trans ?_
      have hx' : x ∉ headers :: (kept.map Prod.fst ++ ahead.map Prod.fst) := by
        rwa [← List.map_append]
      rw [hsame x hx']
      refine howns.same x fun hmem => hx' ?_
      simp only [List.map_append, List.map_cons, List.mem_cons, List.mem_append] at hmem ⊢
      tauto

/-- A loop of `list_for_each_safe` whose rounds take out the headers that are not kept. -/
theorem loop_owns {body : A → Memory A → Option (Memory A)} (keep : HttpHeader → Bool)
    (hbody : ∀ kept p ahead m, Owns start headers m (kept ++ p :: ahead) →
      ∃ m', body p.1 m = some m' ∧
        Owns start headers m' (kept ++ [p].filter (fun q => keep q.2) ++ ahead))
    (howns : Owns start headers mem hs) :
    ∃ mem', Returns (listForEachSafe Memory.heads headers body mem) mem' ∧
      Owns start headers mem' (hs.filter fun q => keep q.2) := by
  -- between two rounds: the headers behind are settled, those ahead are as they were
  let I : List (A × HttpHeader) → Memory A → Prop := fun ahead m =>
    ∃ visited, hs = visited ++ ahead ∧
      Owns start headers m (visited.filter (fun q => keep q.2) ++ ahead)
  have hround : ∀ p ahead m, I (p :: ahead) m → ∃ m', body p.1 m = some m' ∧ I ahead m' := by
    rintro p ahead m ⟨visited, hhs, hm⟩
    obtain ⟨m', hm', howns'⟩ := hbody _ p ahead m hm
    refine ⟨m', hm', visited ++ [p], by simp [hhs], ?_⟩
    rwa [List.filter_append]
  have hring : ∀ ahead m, I ahead m →
      ∃ kept, RingAt m.heads headers (kept ++ ahead.map Prod.fst) := by
    rintro ahead m ⟨visited, -, hm⟩
    exact ⟨_, by simpa only [List.map_append] using hm.ring⟩
  obtain ⟨mem', hreturns, visited, hhs, hend⟩ :=
    listForEachSafe_returns hring hround (s := mem) ⟨[], rfl, howns⟩ howns.ring
  obtain rfl : hs = visited := by simpa using hhs
  exact ⟨mem', hreturns, by simpa using hend⟩

theorem delValue_owns (howns : Owns start headers mem hs)
    (h : Returns (httpcMessageDelValue headers mem key) mem') :
    Owns start headers mem' (hs.filter fun p => !CStr.eqIgnoreCase p.2.key key) := by
  have hbody : ∀ kept p ahead m, Owns start headers m (kept ++ p :: ahead) →
      ∃ m', delValueRound key p.1 m = some m' ∧ Owns start headers m'
        (kept ++ [p].filter (fun q => !CStr.eqIgnoreCase q.2.key key) ++ ahead) := by
    intro kept p ahead m hm
    have hfields := hm.fields p (List.mem_append_right kept List.mem_cons_self)
    cases hmatch : CStr.eqIgnoreCase p.2.key key with
    | true =>
        obtain ⟨m', hm', howns'⟩ := hm.remove
        refine ⟨m', ?_, by simpa [hmatch] using howns'⟩
        simp only [delValueRound, hfields, Option.bind_eq_bind, Option.bind_some, hmatch, if_true]
        exact hm'
    | false => exact ⟨m, by simp [delValueRound, hfields, hmatch], by simpa [hmatch] using hm⟩
  obtain ⟨mem₁, hreturns, howns'⟩ :=
    loop_owns (fun h => !CStr.eqIgnoreCase h.key key) hbody howns
  obtain rfl := Returns.unique hreturns h
  exact howns'

/-! ## The release -/

/-- The memory behind some calls on a message that has been created in it. -/
inductive MessageRun (start : Memory A) (headers : A) : Memory A → Prop
  | create {junk : Links A} {mem : Memory A}
      (h : httpcMessageCreate headers junk start = some mem) : MessageRun start headers mem
  | setValue {mem mem' : Memory A} {n : A} {junk : Links A} {key value : CStr}
      (hrun : MessageRun start headers mem)
      (h : httpcMessageSetValue headers n junk key value mem = some mem') :
      MessageRun start headers mem'
  | delValue {mem mem' : Memory A} {key : CStr} (hrun : MessageRun start headers mem)
      (h : Returns (httpcMessageDelValue headers mem key) mem') : MessageRun start headers mem'

theorem MessageRun.owns (h : MessageRun start headers mem) :
    ∃ hs, Owns start headers mem hs := by
  induction h with
  | create h => exact ⟨[], create_owns h⟩
  | setValue _ h ih =>
      obtain ⟨hs, howns⟩ := ih
      exact ⟨_, setValue_owns howns h⟩
  | delValue _ h ih =>
      obtain ⟨hs, howns⟩ := ih
      exact ⟨_, delValue_owns howns h⟩

theorem release_owns (howns : Owns start headers mem hs) :
    ∃ mem', Returns (httpcMessageRelease headers mem) mem' ∧ mem'.heads = start.heads := by
  have hbody : ∀ kept p ahead m, Owns start headers m (kept ++ p :: ahead) →
      ∃ m', releaseRound p.1 m = some m' ∧
        Owns start headers m' (kept ++ [p].filter (fun _ => false) ++ ahead) := by
    intro kept p ahead m hm
    have hfields := hm.fields p (List.mem_append_right kept List.mem_cons_self)
    obtain ⟨m', hm', howns'⟩ := hm.remove
    refine ⟨m', ?_, by simpa using howns'⟩
    rw [releaseRound, hfields]
    exact hm'
  obtain ⟨mem', ⟨needed, hneeded⟩, hempty⟩ := loop_owns (fun _ => false) hbody howns
  have hnone : hs.filter (fun _ => false) = [] := by simp
  rw [hnone] at hempty
  refine ⟨{ free mem' headers with headerCnt := 0 }, ⟨needed, fun fuel hfuel => ?_⟩, ?_⟩
  · rw [httpcMessageRelease, hneeded fuel hfuel]
    rfl
  · funext x
    by_cases hx : x = headers
    · rw [hx, hempty.fresh headers List.mem_cons_self]
      exact Function.update_self headers none mem'.heads
    · refine (Function.update_of_ne hx none mem'.heads).trans ?_
      exact hempty.same x fun hmem => hx (List.mem_singleton.mp hmem)

end LibSimple.Http.HeaderMemory
