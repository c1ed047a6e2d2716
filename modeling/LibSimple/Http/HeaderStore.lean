import LibSimple.Http.HeaderMemory
import LibSimple.Support.WriteLog

/-!
# The header store

Runs of `httpc_Message_setValue` and `httpc_Message_delValue` from
`httpc_Message_create`, for all addresses that `malloc` may hand out on the
way.  The memory after a run holds the headers of the message that the same
calls build, and a search in it answers with the latest value set for the key
that no deletion follows.
-/

namespace LibSimple.Http.HeaderMemory

open CLang LinkedRing ListHead WriteLog

variable {A : Type} [DecidableEq A]

/-- What `strcasecmp` compares. -/
def foldCase (s : CStr) : List UInt8 := s.val.map toLower

theorem eqIgnoreCase_eq_decide (s t : CStr) :
    CStr.eqIgnoreCase s t = decide (foldCase s = foldCase t) := by
  rw [CStr.eqIgnoreCase, Bool.beq_eq_decide_eq]
  rfl

/-! ## The message that calls build -/

/-- One call on the message. -/
def call (msg : HttpMessage) : Call CStr CStr → HttpMessage
  | .set key value => Http.httpcMessageSetValue msg key value
  | .del key => Http.httpcMessageDelValue msg key

def messageAfter (calls : List (Call CStr CStr)) : HttpMessage :=
  calls.foldl call Http.httpcMessageCreate

theorem messageAfter_snoc (calls : List (Call CStr CStr)) (c : Call CStr CStr) :
    messageAfter (calls ++ [c]) = call (messageAfter calls) c := by
  rw [messageAfter, List.foldl_append]
  rfl

/-- The headers are the entries of the log. -/
theorem headers_messageAfter (calls : List (Call CStr CStr)) :
    (messageAfter calls).headers.map (fun h => (h.key, h.value)) =
      calls.foldl (apply foldCase) [] := by
  induction calls using List.reverseRecOn with
  | nil => rfl
  | append_singleton calls c ih =>
      rw [messageAfter_snoc, List.foldl_append, ← ih]
      cases c with
      | set key value => rfl
      | del key =>
          simp only [call, Http.httpcMessageDelValue, eqIgnoreCase_eq_decide, List.foldl_cons,
            List.foldl_nil, apply, List.filter_map, ne_eq, decide_not]
          rfl

theorem getValue_eq_lookup (msg : HttpMessage) (k : CStr) :
    Http.httpcMessageGetValue msg k =
      lookup foldCase (msg.headers.map fun h => (h.key, h.value)) k := by
  simp only [Http.httpcMessageGetValue, lookup, List.find?_map, Option.map_map,
    eqIgnoreCase_eq_decide]
  rfl

/-- The message answers with the latest value that is held. -/
theorem getValue_messageAfter_iff (calls : List (Call CStr CStr)) (k v : CStr) :
    Http.httpcMessageGetValue (messageAfter calls) k = some v ↔ Latest foldCase calls k v := by
  rw [getValue_eq_lookup, headers_messageAfter, lookup_eq_some_iff]

/-! ## Runs in memory -/

/-- The memory after these calls on a fresh message. -/
inductive HeaderRun (headers : A) : List (Call CStr CStr) → Memory A → Prop
  | create {mem mem' : Memory A} {junk : Links A}
      (h : httpcMessageCreate headers junk mem = some mem') : HeaderRun headers [] mem'
  | setValue {calls : List (Call CStr CStr)} {mem mem' : Memory A} {n : A} {junk : Links A}
      {key value : CStr} (hrun : HeaderRun headers calls mem)
      (h : httpcMessageSetValue headers n junk key value mem = some mem') :
      HeaderRun headers (calls ++ [.set key value]) mem'
  | delValue {calls : List (Call CStr CStr)} {mem mem' : Memory A} {key : CStr}
      (hrun : HeaderRun headers calls mem)
      (h : Returns (httpcMessageDelValue headers mem key) mem') :
      HeaderRun headers (calls ++ [.del key]) mem'

variable {headers n : A} {junk : Links A} {calls : List (Call CStr CStr)} {mem mem' : Memory A}

theorem malloc_of_live (hlive : mem.heads n ≠ none) : malloc mem n junk = none :=
  if_pos (Option.isSome_iff_ne_none.mpr hlive)

/-- A message that could be created lies at an address that was free. -/
theorem free_of_create (h : httpcMessageCreate headers junk mem = some mem') :
    mem.heads headers = none := by
  by_contra hlive
  simp [httpcMessageCreate, malloc_of_live hlive] at h

/-- A header that could be added lies at an address that was free. -/
theorem free_of_setValue {key value : CStr}
    (h : httpcMessageSetValue headers n junk key value mem = some mem') : mem.heads n = none := by
  by_contra hlive
  simp [httpcMessageSetValue, makeKvpair, malloc_of_live hlive] at h

/-- The memory holds the headers of the message. -/
theorem HeaderRun.stores (hrun : HeaderRun headers calls mem) :
    ∃ hs, Stores headers mem hs ∧ (messageAfter calls).headers = hs.map Prod.snd ∧
      mem.headerCnt = (messageAfter calls).headerCnt := by
  induction hrun with
  | create h =>
      obtain ⟨mem', hmem', hstores, hcnt⟩ := create_stores (free_of_create h)
      obtain rfl := Option.some.inj (hmem'.symm.trans h)
      exact ⟨[], hstores, rfl, hcnt⟩
  | setValue hrun h ih =>
      rename_i calls mem mem₁ n junk key value
      obtain ⟨hs, hstores, hheaders, hcnt⟩ := ih
      obtain ⟨mem', hmem', hstores', hcnt'⟩ := setValue_stores hstores (free_of_setValue h)
      obtain rfl := Option.some.inj (hmem'.symm.trans h)
      refine ⟨_, hstores', ?_, ?_⟩
      · rw [messageAfter_snoc, List.map_cons, ← hheaders]
        rfl
      · rw [messageAfter_snoc, hcnt', hcnt]
        rfl
  | delValue hrun h ih =>
      rename_i calls mem mem₁ key
      obtain ⟨hs, hstores, hheaders, hcnt⟩ := ih
      obtain ⟨mem', hmem', hstores', hcnt'⟩ := delValue_returns hstores
      obtain rfl := hmem'.unique h
      refine ⟨_, hstores', ?_, ?_⟩
      · rw [messageAfter_snoc]
        simp only [call, Http.httpcMessageDelValue, hheaders, List.filter_map]
        rfl
      · rw [messageAfter_snoc, hcnt', hcnt]
        rfl

/-- After any calls a search answers as the message does. -/
theorem HeaderRun.getValue_returns (hrun : HeaderRun headers calls mem) (k : CStr) :
    Returns (httpcMessageGetValue headers mem k)
      (answer (Http.httpcMessageGetValue (messageAfter calls) k)) := by
  obtain ⟨hs, hstores, hheaders, -⟩ := hrun.stores
  rw [Http.httpcMessageGetValue, hheaders]
  exact HeaderMemory.getValue_returns hstores

/-- After any calls a search finds the latest value that is held for the key and
nothing else; a further `setValue` returns for every address that `malloc` may
hand out, and a further `delValue` returns and takes out exactly the headers
with an equal key. -/
theorem headerStore_correct (hrun : HeaderRun headers calls mem) :
    (∀ k v, Latest foldCase calls k v →
      Returns (httpcMessageGetValue headers mem k) (1, some v)) ∧
    (∀ k, (∀ v, ¬ Latest foldCase calls k v) →
      Returns (httpcMessageGetValue headers mem k) (0, none)) ∧
    ∃ hs, Stores headers mem hs ∧
      (∀ n junk key value, mem.heads n = none →
        ∃ mem', httpcMessageSetValue headers n junk key value mem = some mem' ∧
          Stores headers mem' ((n, ⟨key, value⟩) :: hs)) ∧
      ∀ key, ∃ mem', Returns (httpcMessageDelValue headers mem key) mem' ∧
        Stores headers mem' (hs.filter fun p => !CStr.eqIgnoreCase p.2.key key) := by
  obtain ⟨hs, hstores, -⟩ := hrun.stores
  refine ⟨?_, ?_, hs, hstores, ?_, ?_⟩
  · intro k v hlatest
    have hreturns := hrun.getValue_returns k
    rw [(getValue_messageAfter_iff calls k v).mpr hlatest] at hreturns
    exact hreturns
  · intro k hnone
    have hreturns := hrun.getValue_returns k
    have hget : Http.httpcMessageGetValue (messageAfter calls) k = none := by
      rw [Option.eq_none_iff_forall_ne_some]
      intro v hv
      exact hnone v ((getValue_messageAfter_iff calls k v).mp hv)
    rw [hget] at hreturns
    exact hreturns
  · intro n junk key value hfree
    obtain ⟨mem', hmem', hstores', -⟩ := setValue_stores hstores hfree
    exact ⟨mem', hmem', hstores'⟩
  · intro key
    obtain ⟨mem', hmem', hstores', -⟩ := delValue_returns hstores
    exact ⟨mem', hmem', hstores'⟩

/-- `"a"` is set and then `"A"`; a search for the first finds the second value. -/
theorem headerStore_correct_twice :
    ∃ (lower upper one two : CStr) (mem : Memory ℕ),
      lower.val = [97] ∧ upper.val = [65] ∧ one.val = [49] ∧ two.val = [50] ∧
      HeaderRun 0 [.set lower one, .set upper two] mem ∧
      Returns (httpcMessageGetValue 0 mem lower) (1, some two) := by
  have hcreate := @HeaderRun.create ℕ _ 0 ⟨fun _ => none, fun _ => none, 0⟩ _ ⟨0, 0⟩ rfl
  have hfirst := @HeaderRun.setValue ℕ _ 0 _ _ _ 1 ⟨0, 0⟩ ⟨[97], by decide⟩ ⟨[49], by decide⟩
    hcreate rfl
  have hsecond := @HeaderRun.setValue ℕ _ 0 _ _ _ 2 ⟨0, 0⟩ ⟨[65], by decide⟩ ⟨[50], by decide⟩
    hfirst rfl
  refine ⟨⟨[97], by decide⟩, ⟨[65], by decide⟩, ⟨[49], by decide⟩, ⟨[50], by decide⟩, _,
    rfl, rfl, rfl, rfl, hsecond, (headerStore_correct hsecond).1 _ _ ?_⟩
  exact latest_snoc_set rfl |>.mpr rfl

end LibSimple.Http.HeaderMemory
