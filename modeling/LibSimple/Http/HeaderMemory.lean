import LibSimple.Http.Message
import LibSimple.ListHead.Refinement

/-!
# Headers in memory

The header functions of `httpc.c` on the nodes that `malloc` hands out.  The
memory holds a `list_head` at the address `&msg->headers` and at every
`HttpHeader`, whose first member it is; the other members of an `HttpHeader`
are kept under the same address.  `malloc` may hand out any address that is not
alive, and what it hands out holds arbitrary links.
-/

namespace LibSimple.Http.HeaderMemory

open CLang LinkedRing ListHead

variable {A : Type} [DecidableEq A]

/-- The two strings of an `HttpHeader`; `none` is a null pointer. -/
structure KeyValue where
  key : Option CStr
  value : Option CStr
  deriving DecidableEq

structure Memory (A : Type) where
  heads : Heap A
  nodes : A → Option KeyValue
  headerCnt : ℤ

/-- `malloc` of something that begins with a `list_head`. -/
def malloc (mem : Memory A) (n : A) (junk : Links A) : Option (Memory A) :=
  if (mem.heads n).isSome then none
  else some { mem with heads := Function.update mem.heads n (some junk) }

/-- `free` of an `HttpHeader` -/
def free (mem : Memory A) (n : A) : Memory A :=
  { mem with
    heads := Function.update mem.heads n none
    nodes := Function.update mem.nodes n none }

/-- The header list of `httpc_Message_create`. -/
def httpcMessageCreate (headers : A) (junk : Links A) (mem : Memory A) :
    Option (Memory A) := do
  let mem ← malloc mem headers junk
  let heads ← listInit mem.heads headers
  some { mem with heads := heads, headerCnt := 0 }

/-- `_make_kvpair`, with the address that its `malloc` returns. -/
def makeKvpair (n : A) (junk : Links A) (key value : CStr) (mem : Memory A) :
    Option (Memory A) := do
  let mem ← malloc mem n junk
  some { mem with nodes := Function.update mem.nodes n (some ⟨some key, some value⟩) }

/-- `httpc_Message_setValue`, which always returns 0. -/
def httpcMessageSetValue (headers n : A) (junk : Links A) (key value : CStr) (mem : Memory A) :
    Option (Memory A) := do
  let mem ← makeKvpair n junk key value mem
  let heads ← listAdd mem.heads n headers
  some { mem with heads := heads, headerCnt := addInt mem.headerCnt 1 }

/-- One round of the loop in `httpc_Message_getValue`. -/
def getValueRound (mem : Memory A) (key : CStr) (pos : A) : Option (Option (ℤ × Option CStr)) := do
  let h ← mem.nodes pos
  let hkey ← h.key
  if CStr.eqIgnoreCase hkey key then some (some (1, h.value)) else some none

/-- `httpc_Message_getValue`: its result and what it leaves in `*value`. -/
def httpcMessageGetValue (headers : A) (mem : Memory A) (key : CStr) (fuel : ℕ) :
    Option (ℤ × Option CStr) := do
  match ← listForEach mem.heads headers (getValueRound mem key) fuel with
  | some r => some r
  | none => some (0, none)

/-- One round of the loop in `httpc_Message_delValue`. -/
def delValueRound (key : CStr) (pos : A) (mem : Memory A) : Option (Memory A) := do
  let h ← mem.nodes pos
  let hkey ← h.key
  if CStr.eqIgnoreCase hkey key then
    -- both strings are freed and null before the node leaves the list
    let mem := { mem with nodes := Function.update mem.nodes pos (some ⟨none, none⟩) }
    let heads ← listDel mem.heads pos
    some (free { mem with heads := heads } pos)
  else some mem

/-- `httpc_Message_delValue`, which always returns 0. -/
def httpcMessageDelValue (headers : A) (mem : Memory A) (key : CStr) (fuel : ℕ) :
    Option (Memory A) :=
  listForEachSafe Memory.heads headers (delValueRound key) mem fuel

/-! ## What the memory holds -/

/-- The header list holds these headers, at these addresses. -/
structure Stores (headers : A) (mem : Memory A) (hs : List (A × HttpHeader)) : Prop where
  ring : RingAt mem.heads headers (hs.map Prod.fst)
  fields : ∀ p ∈ hs, mem.nodes p.1 = some ⟨some p.2.key, some p.2.value⟩

variable {headers n : A} {junk : Links A} {mem : Memory A} {hs : List (A × HttpHeader)}
variable {key value : CStr}

omit [DecidableEq A] in
/-- An address that `malloc` may hand out is not in use by the list. -/
theorem Stores.notMem (hstores : Stores headers mem hs) (hfree : mem.heads n = none) :
    n ∉ headers :: hs.map Prod.fst := by
  intro hmem
  have hlive := hstores.ring.isSome_of_mem hmem
  rw [hfree] at hlive
  exact absurd hlive (by simp)

theorem malloc_of_free (hfree : mem.heads n = none) :
    malloc mem n junk = some { mem with heads := Function.update mem.heads n (some junk) } := by
  rw [malloc, hfree]
  rfl

theorem create_stores (hfree : mem.heads headers = none) :
    ∃ mem', httpcMessageCreate headers junk mem = some mem' ∧ Stores headers mem' [] ∧
      mem'.headerCnt = 0 := by
  have hlive : (Function.update mem.heads headers (some junk) headers).isSome := by simp
  obtain ⟨heads, hinit, hring, -⟩ := listInit_ring hlive
  refine ⟨{ mem with heads := heads, headerCnt := 0 }, ?_, ⟨hring, by simp⟩, rfl⟩
  simp [httpcMessageCreate, malloc_of_free hfree, hinit]

/-- A new header comes first. -/
theorem setValue_stores (hstores : Stores headers mem hs) (hfree : mem.heads n = none) :
    ∃ mem', httpcMessageSetValue headers n junk key value mem = some mem' ∧
      Stores headers mem' ((n, ⟨key, value⟩) :: hs) ∧ mem'.headerCnt = addInt mem.headerCnt 1 := by
  have hn := hstores.notMem hfree
  have hring : RingAt (Function.update mem.heads n (some junk)) headers (hs.map Prod.fst) := by
    apply hstores.ring.congr
    intro x hx
    have hxn : x ≠ n := fun heq => hn (heq ▸ hx)
    rw [Function.update_of_ne hxn]
  have hlive : (Function.update mem.heads n (some junk) n).isSome := by simp
  obtain ⟨heads, hadd, hring', -⟩ := listAdd_ring hring hlive hn
  refine ⟨⟨heads, Function.update mem.nodes n (some ⟨some key, some value⟩),
    addInt mem.headerCnt 1⟩,
    ?_, ⟨hring', ?_⟩, rfl⟩
  · simp [httpcMessageSetValue, makeKvpair, malloc_of_free hfree, hadd]
  · intro p hp
    rcases List.mem_cons.mp hp with rfl | hp
    · exact Function.update_self n _ mem.nodes
    · have hpn : p.1 ≠ n := by
        intro heq
        exact hn (List.mem_cons_of_mem headers (heq ▸ List.mem_map_of_mem hp))
      exact (Function.update_of_ne hpn _ mem.nodes).trans (hstores.fields p hp)

/-- The answer of `httpc_Message_getValue`. -/
def answer (r : Option CStr) : ℤ × Option CStr := (if r.isSome then 1 else 0, r)

/-- What the round of a search says about a header. -/
def roundAnswer (key : CStr) (h : HttpHeader) : Option (ℤ × Option CStr) :=
  if CStr.eqIgnoreCase h.key key then some (1, some h.value) else none

omit [DecidableEq A] in
theorem getValueRound_of_mem (hstores : Stores headers mem hs) {p : A × HttpHeader}
    (hp : p ∈ hs) : getValueRound mem key p.1 = some (roundAnswer key p.2) := by
  simp only [getValueRound, hstores.fields p hp, Option.bind_eq_bind, Option.bind_some,
    roundAnswer]
  split
  · rfl
  · rfl

omit [DecidableEq A] in
theorem findSome_roundAnswer (hs : List (A × HttpHeader)) :
    hs.findSome? (fun p => roundAnswer key p.2) =
      ((hs.map Prod.snd).find? fun h => CStr.eqIgnoreCase h.key key).map
        fun h => (1, some h.value) := by
  induction hs with
  | nil => rfl
  | cons p hs ih =>
      rw [List.map_cons, List.findSome?_cons, List.find?_cons, roundAnswer]
      cases hmatch : CStr.eqIgnoreCase p.2.key key with
      | true => rfl
      | false => exact ih

/-- The search meets the headers in the order of the list. -/
theorem getValue_returns (hstores : Stores headers mem hs) :
    Returns (httpcMessageGetValue headers mem key) (answer
      (((hs.map Prod.snd).find? fun h => CStr.eqIgnoreCase h.key key).map HttpHeader.value)) := by
  obtain ⟨needed, hneeded⟩ :=
    listForEach_returns hstores.ring fun p hp => getValueRound_of_mem hstores hp
  refine ⟨needed, fun fuel hfuel => ?_⟩
  rw [httpcMessageGetValue, hneeded fuel hfuel, findSome_roundAnswer]
  cases (hs.map Prod.snd).find? fun h => CStr.eqIgnoreCase h.key key with
  | none => rfl
  | some h => rfl

/-- A node that leaves the list is freed, and the others keep what they hold. -/
theorem Stores.remove {kept ahead : List (A × HttpHeader)} {p : A × HttpHeader}
    (hstores : Stores headers mem (kept ++ p :: ahead)) :
    ∃ heads, listDel mem.heads p.1 = some heads ∧
      Stores headers (free { mem with
        heads := heads, nodes := Function.update mem.nodes p.1 (some ⟨none, none⟩) } p.1)
        (kept ++ ahead) := by
  have hring : RingAt mem.heads headers (kept.map Prod.fst ++ p.1 :: ahead.map Prod.fst) := by
    simpa using hstores.ring
  obtain ⟨heads, hdel, hring', -⟩ := listDel_ring hring
  have hgone : p.1 ∉ headers :: (kept.map Prod.fst ++ ahead.map Prod.fst) := by
    have hnodup : (headers :: kept.map Prod.fst ++ p.1 :: ahead.map Prod.fst).Nodup := hring.nodup
    exact (List.nodup_cons.mp (List.nodup_middle.mp hnodup)).1
  refine ⟨heads, hdel, ?_, ?_⟩
  · rw [List.map_append]
    apply hring'.congr
    intro x hx
    have hxp : x ≠ p.1 := fun heq => hgone (heq ▸ hx)
    exact Function.update_of_ne hxp _ heads
  · intro q hq
    have hqp : q.1 ≠ p.1 := by
      intro heq
      rw [← List.map_append] at hgone
      exact hgone (List.mem_cons_of_mem headers (heq ▸ List.mem_map_of_mem hq))
    have hmem : q ∈ kept ++ p :: ahead := by
      rcases List.mem_append.mp hq with hkept | hahead
      · exact List.mem_append_left _ hkept
      · exact List.mem_append_right _ (List.mem_cons_of_mem p hahead)
    simp only [free, Function.update_of_ne hqp]
    exact hstores.fields q hmem

/-- One round of `httpc_Message_delValue` settles the header at `pos`. -/
theorem delValueRound_stores {kept ahead : List (A × HttpHeader)} {p : A × HttpHeader}
    (hstores : Stores headers mem (kept ++ p :: ahead)) :
    ∃ mem', delValueRound key p.1 mem = some mem' ∧
      Stores headers mem' (kept ++ [p].filter (fun q => !CStr.eqIgnoreCase q.2.key key) ++ ahead) ∧
      mem'.headerCnt = mem.headerCnt := by
  have hfields := hstores.fields p (List.mem_append_right kept List.mem_cons_self)
  cases hmatch : CStr.eqIgnoreCase p.2.key key with
  | true =>
      obtain ⟨heads, hdel, hstores'⟩ := hstores.remove
      refine ⟨free { mem with
        heads := heads, nodes := Function.update mem.nodes p.1 (some ⟨none, none⟩) } p.1,
        ?_, ?_, rfl⟩
      · simp only [delValueRound, hfields, Option.bind_eq_bind, Option.bind_some, hmatch, if_true,
          hdel]
      · simpa [hmatch] using hstores'
  | false =>
      refine ⟨mem, ?_, by simpa [hmatch] using hstores, rfl⟩
      simp [delValueRound, hfields, hmatch]

/-- Between two rounds of `httpc_Message_delValue`: the headers behind are the ones
to keep, those ahead are as they were. -/
def Ahead (headers : A) (mem : Memory A) (hs : List (A × HttpHeader)) (key : CStr)
    (ahead : List (A × HttpHeader)) (m : Memory A) : Prop :=
  ∃ visited, hs = visited ++ ahead ∧
    Stores headers m (visited.filter (fun p => !CStr.eqIgnoreCase p.2.key key) ++ ahead) ∧
    m.headerCnt = mem.headerCnt

/-- `httpc_Message_delValue` keeps exactly the headers with another key, at
their addresses and in their order. -/
theorem delValue_returns (hstores : Stores headers mem hs) :
    ∃ mem', Returns (httpcMessageDelValue headers mem key) mem' ∧
      Stores headers mem' (hs.filter fun p => !CStr.eqIgnoreCase p.2.key key) ∧
      mem'.headerCnt = mem.headerCnt := by
  have hround : ∀ p ahead m, Ahead headers mem hs key (p :: ahead) m →
      ∃ m', delValueRound key p.1 m = some m' ∧ Ahead headers mem hs key ahead m' := by
    rintro p ahead m ⟨visited, hhs, hm, hcnt⟩
    obtain ⟨m', hm', hstores', hcnt'⟩ := delValueRound_stores hm
    refine ⟨m', hm', visited ++ [p], by simp [hhs], ?_, hcnt'.trans hcnt⟩
    rw [List.filter_append]
    exact hstores'
  have hring : ∀ ahead m, Ahead headers mem hs key ahead m →
      ∃ kept, RingAt m.heads headers (kept ++ ahead.map Prod.fst) := by
    rintro ahead m ⟨visited, -, hm, -⟩
    exact ⟨_, by simpa only [List.map_append] using hm.ring⟩
  have hstart : Ahead headers mem hs key hs mem := ⟨[], rfl, hstores, rfl⟩
  obtain ⟨mem', hreturns, visited, hhs, hend, hcnt⟩ :=
    listForEachSafe_returns hring hround hstart hstores.ring
  obtain rfl : hs = visited := by simpa using hhs
  exact ⟨mem', hreturns, by simpa using hend, hcnt⟩

end LibSimple.Http.HeaderMemory
