import LibSimple.Support.Transition
import LibSimple.Thread.Token

/-!
# Each call gets its own reply

The clients and the thread refine a server of one call at a time, and so every
call of `simple_thread_req` returns the reply to its own request.
-/

namespace LibSimple.Thread

open Relation SerialServer

variable {κ Req Rpl : Type} {t : Token κ Req Rpl} {cs : List (κ × Req × Rpl)}
  {s : State κ Req Rpl}

/-! ## Steps -/

/-- The server gets, in no or more steps, from where it was while `t` had the token
to a place that `s` stands for. -/
def Follows (t : Token κ Req Rpl) (cs : List (κ × Req × Rpl)) (s : State κ Req Rpl) : Prop :=
  ∃ t' cs', ReflTransGen SerialServer.Step ⟨cs, t.stage⟩ ⟨cs', t'.stage⟩ ∧ At t' cs' s

theorem At.follows (h : At t cs s) : Follows t cs s :=
  ⟨t, cs, .refl, h⟩

/-- The token changes hands and the server does nothing. -/
theorem follows_silent (t' : Token κ Req Rpl) (hstage : t.stage = t'.stage) (h : At t' cs s) :
    Follows t cs s :=
  ⟨t', cs, hstage ▸ .refl, h⟩

theorem follows_step (t' : Token κ Req Rpl) {cs' : List (κ × Req × Rpl)}
    (hstep : SerialServer.Step ⟨cs, t.stage⟩ ⟨cs', t'.stage⟩) (h : At t' cs' s) :
    Follows t cs s :=
  ⟨t', cs', .single hstep, h⟩

variable {k : κ} {sh : Shared κ Req Rpl}

/-- A client that is outside the critical section and stays there. -/
theorem At.client_outside [DecidableEq κ] (h : At t cs s) (pc : ClientPc Req Rpl)
    (hk : (s.client k).Outside) (hpc : pc.Outside) :
    At t cs { s with client := Function.update s.client k pc } := by
  refine { h with client := h.client.stay hpc ?_ }
  intro pc' heq
  have hin := h.client
  rw [heq] at hin
  exact Token.not_outside heq (hin.1 ▸ hk)

/-- The thread takes a token from `sem_req`. -/
theorem At.take_req (h : At t cs s) (hsem : 0 < s.shared.semReq) :
    Follows t cs
      { s with shared := { s.shared with semReq := s.shared.semReq - 1 }, worker := .read } := by
  obtain ⟨k, r, rfl⟩ := Token.eq_semReq (h.semReq ▸ hsem)
  refine follows_silent (.workerRead k r) rfl ?_
  refine ⟨h.mutex, ?_, h.semRpl, h.client, rfl, h.req, h.rpl, h.log⟩
  rw [h.semReq]
  rfl

theorem follows_client [DecidableEq κ] (h : At t cs s) {pc : ClientPc Req Rpl}
    (hstep : ClientStep k s.shared (s.client k) sh pc) :
    Follows t cs { s with shared := sh, client := Function.update s.client k pc } := by
  generalize hk : s.client k = pc₀ at hstep
  cases hstep with
  | @call r =>
      have hout : (s.client k).Outside := by
        rw [hk]
        trivial
      exact (h.client_outside (.lock r) hout trivial).follows
  | @lock r hmutex =>
      obtain rfl := Token.eq_mutex (Option.map_eq_none_iff.mp (h.mutex.symm.trans hmutex))
      refine follows_step (.clientStore k r) (.accept k r) ?_
      refine ⟨rfl, h.semReq, h.semRpl, h.client.enter, h.worker, nofun, nofun, ?_⟩
      simp only [h.log]
      exact log_accepted.symm
  | @store r =>
      obtain rfl := Token.eq_clientStore (h.client.eq hk not_false)
      refine follows_silent (.clientPost k r) rfl ?_
      refine ⟨h.mutex, h.semReq, h.semRpl, h.client.move, h.worker, ?_, nofun, h.log⟩
      rintro _ ⟨⟩
      rfl
  | @post r =>
      obtain rfl := Token.eq_clientPost (h.client.eq hk not_false)
      refine follows_silent (.semReq k r) rfl ?_
      refine ⟨h.mutex, ?_, h.semRpl, h.client.move, h.worker, h.req, nofun, h.log⟩
      rw [h.semReq]
      rfl
  | @wait r hsem =>
      obtain ⟨k', r', v, rfl⟩ := Token.eq_semRpl (h.semRpl ▸ hsem)
      obtain ⟨⟩ := h.client.eq hk not_false
      refine follows_silent (.clientRead k r v) rfl ?_
      refine ⟨h.mutex, h.semReq, ?_, h.client.move, h.worker, nofun, h.rpl, h.log⟩
      rw [h.semRpl]
      rfl
  | @read r =>
      obtain ⟨v, rfl⟩ := Token.eq_clientRead (h.client.eq hk not_false)
      obtain rfl := h.rpl v rfl
      refine follows_silent (.clientUnlock k r s.shared.rpl) rfl ?_
      exact ⟨h.mutex, h.semReq, h.semRpl, h.client.move, h.worker, nofun, nofun, h.log⟩
  | @unlock r v =>
      obtain rfl := Token.eq_clientUnlock (h.client.eq hk not_false)
      refine follows_step .mutex .complete ?_
      refine ⟨rfl, h.semReq, h.semRpl, h.client.leave trivial, h.worker, nofun, nofun, ?_⟩
      simp only [h.log]
      exact log_completed.symm

/-- The thread is not at work on a request, and it stays so. -/
theorem At.worker_free (h : At t cs s) (pc : WorkerPc Req Rpl) (hw : s.worker.Free)
    (hpc : pc.Free) : At t cs { s with worker := pc } :=
  { h with worker := h.worker.stay hw hpc }

theorem follows_worker (h : At t cs s) {pc : WorkerPc Req Rpl}
    (hstep : WorkerStep s.shared s.worker sh pc) :
    Follows t cs { s with shared := sh, worker := pc } := by
  generalize hw : s.worker = pc₀ at hstep
  have hworker := hw ▸ h.worker
  cases hstep with
  | getreq => exact (h.worker_free .getreq (hw ▸ trivial) trivial).follows
  | getreqWait hsem => exact h.take_req hsem
  | chkreq => exact (h.worker_free .chkreq (hw ▸ trivial) trivial).follows
  | chkreqWait hsem => exact h.take_req hsem
  | chkreqTimeout => exact (h.worker_free .idle (hw ▸ trivial) trivial).follows
  | read =>
      obtain ⟨k, r, rfl⟩ := Token.eq_workerRead (hworker.eq not_false)
      obtain rfl := h.req r rfl
      refine follows_step (.workerServe k s.shared.req) .obtain ?_
      refine ⟨h.mutex, h.semReq, h.semRpl, h.client, rfl, nofun, nofun, ?_⟩
      simp only [h.log]
      exact log_obtained.symm
  | @reply r v =>
      obtain ⟨k, rfl⟩ := Token.eq_workerServe (hworker.eq not_false)
      refine follows_silent (.workerStore k r v) rfl ?_
      exact ⟨h.mutex, h.semReq, h.semRpl, h.client, rfl, nofun, nofun, h.log⟩
  | @store r v =>
      obtain ⟨k, rfl⟩ := Token.eq_workerStore (hworker.eq not_false)
      refine follows_step (.workerPost k r v) (.reply v) ?_
      refine ⟨h.mutex, h.semReq, h.semRpl, h.client, rfl, nofun, ?_, ?_⟩
      · rintro _ ⟨⟩
        rfl
      · simp only [h.log]
        exact log_replied.symm
  | post =>
      obtain ⟨k, r, v, rfl⟩ := Token.eq_workerPost (hworker.eq not_false)
      refine follows_silent (.semRpl k r v) rfl ?_
      refine ⟨h.mutex, h.semReq, ?_, h.client, trivial, nofun, h.rpl, h.log⟩
      rw [h.semRpl]
      rfl

/-! ## Runs -/

/-- The server is where the state says it is. -/
def Refines (s : State κ Req Rpl) (a : SerialServer.State κ Req Rpl) : Prop :=
  ∃ t : Token κ Req Rpl, t.stage = a.stage ∧ At t a.completed s

theorem refines_create (req : Req) (rpl : Rpl) :
    Refines (simpleThreadCreate req rpl : State κ Req Rpl) ⟨[], .free⟩ :=
  ⟨.mutex, rfl, rfl, rfl, rfl, fun _ => trivial, trivial, nofun, nofun, rfl⟩

theorem refines_step [DecidableEq κ] {s s' : State κ Req Rpl} {a : SerialServer.State κ Req Rpl}
    (h : Refines s a) (hstep : Step s s') :
    ∃ b, ReflTransGen SerialServer.Step a b ∧ Refines s' b := by
  obtain ⟨cs, stage⟩ := a
  obtain ⟨t, rfl, ht⟩ := h
  have hfollows : Follows t cs s' := by
    cases hstep with
    | client k hclient => exact follows_client ht hclient
    | worker hworker => exact follows_worker ht hworker
  obtain ⟨t', cs', hserver, ht'⟩ := hfollows
  exact ⟨⟨cs', t'.stage⟩, hserver, t', rfl, ht'⟩

/-- The threads together run as a server of one call at a time. -/
theorem refines_reachable [DecidableEq κ] (h : Reachable s) :
    ∃ a, ReflTransGen SerialServer.Step ⟨[], .free⟩ a ∧ Refines s a := by
  obtain ⟨req, rpl, hrun⟩ := h
  exact Transition.simulation (R := Refines) (fun _ _ _ => refines_step)
    (refines_create req rpl) hrun

/-- The call that returns in place `i` acquired the mutex in place `i`, its request
was obtained in place `i`, and it returned the reply in place `i`, which was given
to this request.  The slots are not used before it is their turn: when a request
is stored, all earlier ones have been obtained, and when a reply is read, it is
the last one and an answer to this call. -/
structure Matched (s : State κ Req Rpl) : Prop where
  obtained : s.shared.log.obtained <+: s.shared.log.accepted.map Prod.snd
  replied : s.shared.log.replied.map Prod.fst <+: s.shared.log.obtained
  returned : ∀ (i : ℕ) k r v, s.shared.log.returned[i]? = some (k, r, v) →
    s.shared.log.accepted[i]? = some (k, r) ∧ s.shared.log.obtained[i]? = some r ∧
      s.shared.log.replied[i]? = some (r, v)
  stores : ∀ k r, s.client k = .store r →
    s.shared.log.accepted.getLast? = some (k, r) ∧
      s.shared.log.obtained.length + 1 = s.shared.log.accepted.length
  reads : ∀ k r, s.client k = .read r →
    s.shared.log.accepted.getLast? = some (k, r) ∧
      s.shared.log.replied.getLast? = some (r, s.shared.rpl) ∧
      s.shared.log.replied.length = s.shared.log.accepted.length

theorem matched [DecidableEq κ] (h : Reachable s) : Matched s := by
  obtain ⟨⟨cs, stage⟩, -, t, rfl, ht⟩ := refines_reachable h
  refine ⟨?_, ?_, ?_, ?_, ?_⟩
  · rw [ht.log]
    exact obtained_order _
  · rw [ht.log]
    exact replied_order _
  · intro i k r v hi
    rw [ht.log] at hi ⊢
    exact returned_getElem? _ hi
  · intro k r hk
    obtain rfl := Token.eq_clientStore (ht.client.eq hk not_false)
    rw [ht.log]
    simp [SerialServer.State.log, Token.stage]
  · intro k r hk
    obtain ⟨v, rfl⟩ := Token.eq_clientRead (ht.client.eq hk not_false)
    obtain rfl := ht.rpl v rfl
    rw [ht.log]
    simp [SerialServer.State.log, Token.stage]

/-- Two clients call at the same time; the thread gets the first request after a
timeout, and the second call returns its own reply. -/
theorem matched_run :
    ∃ s : State Bool ℕ ℕ,
      s.shared.log.returned = [(true, 5, 50), (false, 3, 30)] ∧ Matched s := by
  have h : ReflTransGen Step (simpleThreadCreate 0 0 : State Bool ℕ ℕ) _ := .refl
  have h := h.tail (.client false (.call (r := 3)))
  have h := h.tail (.client true (.call (r := 5)))
  have h := h.tail (.client true (.lock rfl))
  have h := h.tail (.worker .chkreq)
  have h := h.tail (.client true .store)
  have h := h.tail (.worker .chkreqTimeout)
  have h := h.tail (.client true .post)
  have h := h.tail (.worker .getreq)
  have h := h.tail (.worker (.getreqWait Nat.one_pos))
  have h := h.tail (.worker .read)
  have h := h.tail (.worker (.reply (v := 50)))
  have h := h.tail (.worker .store)
  have h := h.tail (.worker .post)
  have h := h.tail (.worker .chkreq)
  have h := h.tail (.client true (.wait Nat.one_pos))
  have h := h.tail (.client true .read)
  have h := h.tail (.client true .unlock)
  have h := h.tail (.client false (.lock rfl))
  have h := h.tail (.client false .store)
  have h := h.tail (.client false .post)
  have h := h.tail (.worker (.chkreqWait Nat.one_pos))
  have h := h.tail (.worker .read)
  have h := h.tail (.worker (.reply (v := 30)))
  have h := h.tail (.worker .store)
  have h := h.tail (.worker .post)
  have h := h.tail (.client false (.wait Nat.one_pos))
  have h := h.tail (.client false .read)
  have h := h.tail (.client false .unlock)
  exact ⟨_, rfl, matched ⟨0, 0, h⟩⟩

end LibSimple.Thread
