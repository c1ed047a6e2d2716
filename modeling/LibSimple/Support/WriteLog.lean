import Mathlib.Data.List.Induction

/-!
# Logs of writes and deletions

A log of `set` and `del` calls gives every key the value of the latest write
that no deletion follows.  Keys with the same norm count as equal.  A store
that keeps all its writes, newest first, and searches from the front answers
the same.
-/

namespace WriteLog

variable {K V N : Type*}

inductive Call (K V : Type*)
  | set (key : K) (value : V)
  | del (key : K)
  deriving DecidableEq

def Call.key : Call K V → K
  | .set key _ => key
  | .del key => key

/-- The call at place `i` has set a key equal to `k`, and no later call deletes
such a key. -/
def Held (norm : K → N) (calls : List (Call K V)) (k : K) (i : ℕ) (v : V) : Prop :=
  (∃ key, calls[i]? = some (.set key v) ∧ norm key = norm k) ∧
    ∀ j key, i < j → calls[j]? = some (.del key) → norm key ≠ norm k

/-- `v` is the value of the latest call that holds for `k`. -/
def Latest (norm : K → N) (calls : List (Call K V)) (k : K) (v : V) : Prop :=
  ∃ i, Held norm calls k i v ∧ ∀ j w, Held norm calls k j w → j ≤ i

variable {norm : K → N} {calls : List (Call K V)} {call : Call K V} {k key : K} {v w : V} {i : ℕ}

theorem Held.lt_length (h : Held norm calls k i v) : i < calls.length := by
  obtain ⟨⟨key, hget, -⟩, -⟩ := h
  exact (List.getElem?_eq_some_iff.mp hget).1

theorem not_latest_nil : ¬ Latest norm ([] : List (Call K V)) k v := by
  rintro ⟨i, hheld, -⟩
  exact Nat.not_lt_zero i hheld.lt_length

/-- What holds before a call that does not delete an equal key holds after it,
at the same place. -/
theorem held_snoc_of_lt (hi : i < calls.length)
    (hcall : ∀ key, call = .del key → norm key ≠ norm k) :
    Held norm (calls ++ [call]) k i v ↔ Held norm calls k i v := by
  unfold Held
  rw [List.getElem?_append_left hi]
  refine and_congr_right fun _ => ?_
  constructor
  · intro h j key hij hget
    apply h j key hij
    rw [List.getElem?_append_left (List.getElem?_eq_some_iff.mp hget).1]
    exact hget
  · intro h j key hij hget
    by_cases hj : j < calls.length
    · rw [List.getElem?_append_left hj] at hget
      exact h j key hij hget
    · rw [List.getElem?_append_right (Nat.le_of_not_lt hj)] at hget
      exact hcall key (List.mem_singleton.mp (List.mem_of_getElem? hget)).symm

theorem held_snoc_last :
    Held norm (calls ++ [call]) k calls.length v ↔
      ∃ key, call = .set key v ∧ norm key = norm k := by
  constructor
  · rintro ⟨⟨key, hget, hkey⟩, -⟩
    rw [List.getElem?_concat_length] at hget
    exact ⟨key, Option.some.inj hget, hkey⟩
  · rintro ⟨key, rfl, hkey⟩
    refine ⟨⟨key, List.getElem?_concat_length, hkey⟩, fun j key' hj hget => ?_⟩
    have hlt := (List.getElem?_eq_some_iff.mp hget).1
    rw [List.length_append, List.length_singleton] at hlt
    omega

theorem Held.le_length (h : Held norm (calls ++ [call]) k i v) : i ≤ calls.length := by
  have hlt := h.lt_length
  rw [List.length_append, List.length_singleton] at hlt
  exact Nat.le_of_lt_succ hlt

/-- A call on another key changes nothing for `k`. -/
theorem latest_snoc_of_ne (hne : norm call.key ≠ norm k) :
    Latest norm (calls ++ [call]) k v ↔ Latest norm calls k v := by
  have hheld : ∀ i v, Held norm (calls ++ [call]) k i v ↔ Held norm calls k i v := by
    intro i v
    by_cases hi : i < calls.length
    · refine held_snoc_of_lt hi fun key hcall => ?_
      rw [hcall] at hne
      exact hne
    · refine iff_of_false (fun h => ?_) fun h => hi h.lt_length
      obtain rfl : i = calls.length := Nat.le_antisymm h.le_length (Nat.le_of_not_lt hi)
      obtain ⟨key, rfl, hkey⟩ := held_snoc_last.mp h
      exact hne hkey
  unfold Latest
  simp only [hheld]

/-- A write is the latest for every equal key. -/
theorem latest_snoc_set (heq : norm key = norm k) :
    Latest norm (calls ++ [.set key w]) k v ↔ w = v := by
  have hlast : Held norm (calls ++ [.set key w]) k calls.length w :=
    held_snoc_last.mpr ⟨key, rfl, heq⟩
  constructor
  · rintro ⟨i, hheld, hmax⟩
    obtain rfl : i = calls.length := Nat.le_antisymm hheld.le_length (hmax _ _ hlast)
    obtain ⟨key', hcall, -⟩ := held_snoc_last.mp hheld
    cases hcall
    rfl
  · rintro rfl
    exact ⟨calls.length, hlast, fun j v hj => hj.le_length⟩

/-- After a deletion nothing is held for an equal key. -/
theorem not_latest_snoc_del (heq : norm key = norm k) :
    ¬ Latest norm (calls ++ [.del key]) k v := by
  rintro ⟨i, hheld, -⟩
  rcases Nat.lt_or_eq_of_le hheld.le_length with hi | rfl
  · exact hheld.2 calls.length key hi List.getElem?_concat_length heq
  · obtain ⟨key', hcall, -⟩ := held_snoc_last.mp hheld
    cases hcall

/-! ## Stores that keep every write -/

variable [DecidableEq N] (norm)

/-- What one call does to the entries, newest first. -/
def apply (entries : List (K × V)) : Call K V → List (K × V)
  | .set key value => (key, value) :: entries
  | .del key => entries.filter fun e => norm e.1 ≠ norm key

def lookup (entries : List (K × V)) (k : K) : Option V :=
  (entries.find? fun e => norm e.1 = norm k).map Prod.snd

theorem lookup_set (entries : List (K × V)) :
    lookup norm (apply norm entries (.set key v)) k =
      if norm key = norm k then some v else lookup norm entries k := by
  by_cases heq : norm key = norm k
  · simp [lookup, apply, heq]
  · simp [lookup, apply, heq]

theorem lookup_del (entries : List (K × V)) :
    lookup norm (apply norm entries (.del key)) k =
      if norm key = norm k then none else lookup norm entries k := by
  by_cases heq : norm key = norm k
  · rw [if_pos heq, lookup, Option.map_eq_none_iff, List.find?_eq_none]
    intro e he
    simp only [apply, ne_eq, decide_not, List.mem_filter, Bool.not_eq_true',
      decide_eq_false_iff_not] at he
    simpa [heq] using he.2
  · rw [if_neg heq, lookup, apply, List.find?_filter, lookup]
    congr 2
    funext e
    by_cases he : norm e.1 = norm k
    · have hkey : norm k ≠ norm key := fun h => heq h.symm
      simp [he, hkey]
    · simp [he]

/-- The store answers with the latest write that is held. -/
theorem lookup_eq_some_iff (calls : List (Call K V)) :
    lookup norm (calls.foldl (apply norm) []) k = some v ↔ Latest norm calls k v := by
  induction calls using List.reverseRecOn with
  | nil => exact iff_of_false nofun not_latest_nil
  | append_singleton calls call ih =>
      rw [List.foldl_append, List.foldl_cons, List.foldl_nil]
      by_cases heq : norm call.key = norm k
      · cases call with
        | set key w =>
            have hkey : norm key = norm k := heq
            rw [lookup_set, if_pos hkey, Option.some.injEq, latest_snoc_set hkey]
        | del key =>
            have hkey : norm key = norm k := heq
            rw [lookup_del, if_pos hkey]
            exact iff_of_false nofun (not_latest_snoc_del hkey)
      · rw [latest_snoc_of_ne heq, ← ih]
        cases call with
        | set key w =>
            have hkey : norm key ≠ norm k := heq
            rw [lookup_set, if_neg hkey]
        | del key =>
            have hkey : norm key ≠ norm k := heq
            rw [lookup_del, if_neg hkey]

end WriteLog
