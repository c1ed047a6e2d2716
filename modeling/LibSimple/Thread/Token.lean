import LibSimple.Support.SerialServer
import LibSimple.Support.Transition
import LibSimple.Thread.Model

/-!
# One token for all threads

The mutex and the two semaphores hand a single token around: from the mutex to a
client, through `sem_req` to the thread and through `sem_rpl` back to the client.
Whoever has the token may use the slots `req` and `rpl`, and everyone else waits.
So clients and thread together are a server of one call at a time.
-/

namespace LibSimple.Thread

open Relation SerialServer

variable {κ Req Rpl : Type}

/-! ## Where the token is -/

/-- The holders of the token, in the order of a call `r` of client `k` that
returns `v`. -/
inductive Token (κ Req Rpl : Type)
  | mutex
  | clientStore (k : κ) (r : Req)
  | clientPost (k : κ) (r : Req)
  | semReq (k : κ) (r : Req)
  | workerRead (k : κ) (r : Req)
  | workerServe (k : κ) (r : Req)
  | workerStore (k : κ) (r : Req) (v : Rpl)
  | workerPost (k : κ) (r : Req) (v : Rpl)
  | semRpl (k : κ) (r : Req) (v : Rpl)
  | clientRead (k : κ) (r : Req) (v : Rpl)
  | clientUnlock (k : κ) (r : Req) (v : Rpl)

namespace Token

/-- The client that has the mutex, and where it is. -/
def client : Token κ Req Rpl → Option (κ × ClientPc Req Rpl)
  | mutex => none
  | clientStore k r => some (k, .store r)
  | clientPost k r => some (k, .post r)
  | semReq k r | workerRead k r | workerServe k r | workerStore k r _ | workerPost k r _
  | semRpl k r _ => some (k, .wait r)
  | clientRead k r _ => some (k, .read r)
  | clientUnlock k r v => some (k, .unlock r v)

/-- Where the thread is while it works on a request. -/
def worker : Token κ Req Rpl → Option (WorkerPc Req Rpl)
  | workerRead _ _ => some .read
  | workerServe _ r => some (.serve r)
  | workerStore _ r v => some (.store r v)
  | workerPost _ _ _ => some .post
  | _ => none

def inSemReq : Token κ Req Rpl → ℕ
  | semReq _ _ => 1
  | _ => 0

def inSemRpl : Token κ Req Rpl → ℕ
  | semRpl _ _ _ => 1
  | _ => 0

/-- The request that the slot `req` holds for the thread. -/
def req : Token κ Req Rpl → Option Req
  | clientPost _ r | semReq _ r | workerRead _ r => some r
  | _ => none

/-- The reply that the slot `rpl` holds for the client. -/
def rpl : Token κ Req Rpl → Option Rpl
  | workerPost _ _ v | semRpl _ _ v | clientRead _ _ v => some v
  | _ => none

/-- What the server of one call at a time has done. -/
def stage : Token κ Req Rpl → Stage κ Req Rpl
  | mutex => .free
  | clientStore k r | clientPost k r | semReq k r | workerRead k r => .accepted k r
  | workerServe k r | workerStore k r _ => .obtained k r
  | workerPost k r v | semRpl k r v | clientRead k r v | clientUnlock k r v => .replied k r v

end Token

/-- Outside the critical section of `simple_thread_req`. -/
def ClientPc.Outside : ClientPc Req Rpl → Prop
  | idle | lock _ => True
  | _ => False

/-- Not at work on a request. -/
def WorkerPc.Free : WorkerPc Req Rpl → Prop
  | idle | getreq | chkreq => True
  | _ => False

/-- All clients but the given one are outside the critical section. -/
def Occupied (f : κ → ClientPc Req Rpl) : Option (κ × ClientPc Req Rpl) → Prop
  | none => ∀ k, (f k).Outside
  | some (k, pc) => f k = pc ∧ ∀ k' ≠ k, (f k').Outside

def Engaged (pc : WorkerPc Req Rpl) : Option (WorkerPc Req Rpl) → Prop
  | none => pc.Free
  | some pc' => pc = pc'

/-- The state is one in which `t` is the holder of the token and `cs` are the calls
that have returned. -/
structure At (t : Token κ Req Rpl) (cs : List (κ × Req × Rpl)) (s : State κ Req Rpl) :
    Prop where
  mutex : s.shared.mutex = t.client.map Prod.fst
  semReq : s.shared.semReq = t.inSemReq
  semRpl : s.shared.semRpl = t.inSemRpl
  client : Occupied s.client t.client
  worker : Engaged s.worker t.worker
  req : ∀ r ∈ t.req, s.shared.req = r
  rpl : ∀ v ∈ t.rpl, s.shared.rpl = v
  log : s.shared.log = SerialServer.State.log ⟨cs, t.stage⟩

/-! ## Clients in the critical section -/

section Occupied

variable {f : κ → ClientPc Req Rpl} {o : Option (κ × ClientPc Req Rpl)} {k : κ}
  {pc pc' : ClientPc Req Rpl}

theorem Occupied.eq (h : Occupied f o) (hk : f k = pc) (hpc : ¬ pc.Outside) :
    o = some (k, pc) := by
  cases o with
  | none => exact absurd (hk ▸ h k) hpc
  | some p =>
      obtain ⟨k', pc'⟩ := p
      obtain ⟨hin, hout⟩ := h
      by_cases hkk : k = k'
      · subst hkk
        rw [← hin, hk]
      · exact absurd (hk ▸ hout k hkk) hpc

variable [DecidableEq κ]

/-- The client inside moves on. -/
theorem Occupied.move (h : Occupied f (some (k, pc))) :
    Occupied (Function.update f k pc') (some (k, pc')) := by
  obtain ⟨-, hout⟩ := h
  refine ⟨Function.update_self k pc' f, fun k' hk' => ?_⟩
  rw [Function.update_of_ne hk']
  exact hout k' hk'

theorem Occupied.enter (h : Occupied f none) :
    Occupied (Function.update f k pc) (some (k, pc)) := by
  refine ⟨Function.update_self k pc f, fun k' hk' => ?_⟩
  rw [Function.update_of_ne hk']
  exact h k'

theorem Occupied.leave (h : Occupied f (some (k, pc))) (hpc : pc'.Outside) :
    Occupied (Function.update f k pc') none := by
  obtain ⟨-, hout⟩ := h
  intro k'
  by_cases hk' : k' = k
  · rw [hk', Function.update_self]
    exact hpc
  · rw [Function.update_of_ne hk']
    exact hout k' hk'

/-- A client outside moves and stays outside. -/
theorem Occupied.stay (h : Occupied f o) (hpc : pc'.Outside)
    (ho : ∀ pc, o ≠ some (k, pc)) : Occupied (Function.update f k pc') o := by
  have hupdate : ∀ k', (f k').Outside → (Function.update f k pc' k').Outside := by
    intro k' hk'
    by_cases hkk : k' = k
    · rwa [hkk, Function.update_self]
    · rwa [Function.update_of_ne hkk]
  cases o with
  | none => exact fun k' => hupdate k' (h k')
  | some p =>
      obtain ⟨k', pc⟩ := p
      obtain ⟨hin, hout⟩ := h
      have hne : k' ≠ k := fun heq => ho pc (heq ▸ rfl)
      exact ⟨by rw [Function.update_of_ne hne, hin], fun k'' hk'' => hupdate k'' (hout k'' hk'')⟩

end Occupied

/-! ## Who has the token -/

section Token

variable {t : Token κ Req Rpl} {k : κ} {r : Req} {v : Rpl}

namespace Token

theorem not_outside {pc : ClientPc Req Rpl} (h : t.client = some (k, pc)) : ¬ pc.Outside := by
  cases t <;> simp only [client, reduceCtorEq, Option.some.injEq, Prod.mk.injEq] at h <;>
    (obtain ⟨-, rfl⟩ := h; exact not_false)

theorem not_free {pc : WorkerPc Req Rpl} (h : t.worker = some pc) : ¬ pc.Free := by
  cases t <;> simp only [worker, reduceCtorEq, Option.some.injEq] at h <;>
    (subst h; exact not_false)

theorem eq_mutex (h : t.client = none) : t = .mutex := by
  cases t <;> simp_all [client]

theorem eq_clientStore (h : t.client = some (k, .store r)) : t = .clientStore k r := by
  cases t <;> simp_all [client]

theorem eq_clientPost (h : t.client = some (k, .post r)) : t = .clientPost k r := by
  cases t <;> simp_all [client]

theorem eq_clientRead (h : t.client = some (k, .read r)) : ∃ v, t = .clientRead k r v := by
  cases t <;> simp_all [client]

theorem eq_clientUnlock (h : t.client = some (k, .unlock r v)) : t = .clientUnlock k r v := by
  cases t <;> simp_all [client]

theorem eq_semReq (h : 0 < t.inSemReq) : ∃ k r, t = .semReq k r := by
  cases t <;> simp_all [inSemReq]

theorem eq_semRpl (h : 0 < t.inSemRpl) : ∃ k r v, t = .semRpl k r v := by
  cases t <;> simp_all [inSemRpl]

theorem eq_workerRead (h : t.worker = some .read) : ∃ k r, t = .workerRead k r := by
  cases t <;> simp_all [worker]

theorem eq_workerServe (h : t.worker = some (.serve r)) : ∃ k, t = .workerServe k r := by
  cases t <;> simp_all [worker]

theorem eq_workerStore (h : t.worker = some (.store r v)) : ∃ k, t = .workerStore k r v := by
  cases t <;> simp_all [worker]

theorem eq_workerPost (h : t.worker = some .post) : ∃ k r v, t = .workerPost k r v := by
  cases t <;> simp_all [worker]

end Token

end Token

theorem Engaged.eq {pc : WorkerPc Req Rpl} {o : Option (WorkerPc Req Rpl)} (h : Engaged pc o)
    (hpc : ¬ pc.Free) : o = some pc := by
  cases o with
  | none => exact absurd h hpc
  | some pc' => rw [show pc = pc' from h]

/-- The thread is not at work on a request, and it stays so. -/
theorem Engaged.stay {pc pc' : WorkerPc Req Rpl} {t : Token κ Req Rpl}
    (h : Engaged pc t.worker) (hpc : pc.Free) (hpc' : pc'.Free) : Engaged pc' t.worker := by
  cases ht : t.worker with
  | none => exact hpc'
  | some pc'' =>
      rw [ht] at h
      exact absurd (show pc = pc'' from h) fun heq => Token.not_free ht (heq ▸ hpc)

end LibSimple.Thread
