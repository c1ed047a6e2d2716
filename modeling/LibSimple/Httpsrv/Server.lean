import LibSimple.Httpsrv.Connection
import LibSimple.ThreadPool.Lock
import LibSimple.ThreadPool.Safety

/-!
# The server

`main` of `server.c` over the thread pool: one thread accepts connections and adds a task
for each, and the handler of a task is `handle` of `client.c`.  The pool is never
destroyed, and a handler adds no task.  When `accept` fails `main` returns, which ends the
run.
-/

namespace LibSimple.Httpsrv

open CLang ThreadPool Transition Relation

/-- A connection that `accept` has returned: what `recv` gets from it, and what `send`
returns on it. -/
structure Conn where
  recv : List UInt8
  sends : Stream' ℤ

/-- `client` is the connection for which `main` has built a client last, and `clients` are
those of the tasks, in the order in which the tasks have been appended.  `accepted` and
`closed` are a record: a connection is closed with the bytes that it has got. -/
structure Server (n : ℕ) where
  pool : Pool n Unit
  client : Option Conn
  clients : List Conn
  accepted : List Conn
  closed : List (ℕ × List UInt8)

variable {n : ℕ} {env : Env}

/-- `main` in front of its loop; the pool has eight workers there. -/
def serverCreate (n : ℕ) : Server n where
  pool := simpleThreadPoolCreate n Unit
  client := none
  clients := []
  accepted := []
  closed := []

/-- The steps of `main` in `simple_thread_pool_add_task`, and those of the workers outside
of a handler. -/
inductive InnerStep : Server n → Server n → Prop
  | addTask {s pc sh pc'} (hpc : s.pool.client () = some pc)
      (h : AddStep (Sum.inr ()) s.pool.shared pc sh pc') :
      InnerStep s { s with
        pool := { s.pool with shared := sh, client := Function.update s.pool.client () pc' }
        clients := s.clients ++ if pc = .push then s.client.toList else [] }
  | worker {s} (w : Fin n) {sh l} (hpc : (s.pool.worker w).pc ≠ .handle)
      (h : WorkerStep (Sum.inl w) s.pool.shared (s.pool.worker w) sh l) :
      InnerStep s { s with
        pool := { s.pool with shared := sh, worker := Function.update s.pool.worker w l } }

/-- A step of the server.  A handler has its own connection and works on it in one step,
at the end of which it closes the socket. -/
inductive ServerStep (env : Env) : Server n → Server n → Prop
  | accept {s} (c : Conn) (h : s.pool.client () = none) :
      ServerStep env s { s with
        pool := { s.pool with client := Function.update s.pool.client () (some .lock) }
        client := some c
        accepted := s.accepted ++ [c] }
  | inner {s t} (h : InnerStep s t) : ServerStep env s t
  | handle {s} (w : Fin n) {id c bytes} (hw : s.pool.worker w = ⟨.handle, some id⟩)
      (hc : s.clients[id]? = some c) (h : Returns (handle env c.recv c.sends) bytes) :
      ServerStep env s { s with
        pool := { s.pool with worker := Function.update s.pool.worker w ⟨.test, some id⟩ }
        closed := s.closed ++ [(id, bytes)] }

/-- The states that the server can be in. -/
def ServerReachable (env : Env) (s : Server n) : Prop :=
  ReflTransGen (ServerStep env) (serverCreate n) s

/-- Nothing is left to do but to accept a connection, or to go on in a handler. -/
def Settled (s : Server n) : Prop := ∀ t, ¬ InnerStep s t

/-! ## The pool of the server -/

/-- A step of the server is a step of its pool. -/
theorem ServerStep.pool {s t : Server n} (h : ServerStep env s t) (hidle : s.pool.destroy = .idle) :
    Step s.pool t.pool := by
  cases h with
  | accept c hpc => exact .addTask () hpc (by rw [hidle]; exact not_false)
  | inner h =>
      cases h with
      | addTask hpc h => exact .client () hpc h
      | worker w hpc h => exact .worker w h
  | @handle w id c bytes hw hc h =>
      have hreturn : WorkerStep (Sum.inl w) s.pool.shared (s.pool.worker w) s.pool.shared
          ⟨.test, some id⟩ := by
        rw [hw]
        exact .handleReturn
      exact .worker w hreturn

theorem ServerStep.destroy {s t : Server n} (h : ServerStep env s t) :
    t.pool.destroy = s.pool.destroy := by
  cases h with
  | inner h => cases h <;> rfl
  | _ => rfl

/-- The pool of a server that can be reached can be reached without its destruction. -/
theorem pool_reachable {s : Server n} (h : ServerReachable env s) :
    ThreadPool.Reachable s.pool ∧ s.pool.destroy = .idle := by
  induction h with
  | refl => exact ⟨.refl, rfl⟩
  | tail _ hstep ih => exact ⟨ih.1.tail (hstep.pool ih.2), hstep.destroy.trans ih.2⟩

theorem quit_of_reachable {s : Server n} (h : ServerReachable env s) :
    s.pool.shared.quit = false := by
  obtain ⟨hpool, hidle⟩ := pool_reachable h
  have hquit := (invariant_reachable hpool).quit
  rw [hidle] at hquit
  exact Bool.eq_false_iff.mpr fun htrue => hquit.mp htrue

/-- A worker of the server: it has not ended, it is in no call of
`simple_thread_pool_add_task`, and in a handler it has a task. -/
def Serving (l : Worker) : Prop :=
  match l.pc with
  | .add _ | .exited => False
  | .handle => ∃ id, l.task = some id
  | _ => True

/-- The worker is in the handler of the task. -/
def handling (id : ℕ) (l : Worker) : ℕ :=
  match l.pc with
  | .handle => if l.task = some id then 1 else 0
  | _ => 0

section Workers

variable {a : Thread n Unit} {sh sh' : Shared n Unit} {l l' : Worker}

theorem serving_step (h : WorkerStep a sh l sh' l') (hquit : sh.quit = false)
    (hpc : l.pc ≠ .handle) (hl : Serving l) : Serving l' := by
  cases h with
  | testQuit hq => simp [hquit] at hq
  | recheckQuit hq => simp [hquit] at hq
  | @call id => exact ⟨id, rfl⟩
  | handleAdd => exact absurd rfl hpc
  | add hadd => exact hl.elim
  | _ => trivial

/-- Outside of a handler, a task is executed by the worker that goes into its handler. -/
theorem handling_step (h : WorkerStep a sh l sh' l') (hpc : l.pc ≠ .handle) (hl : Serving l)
    (id : ℕ) :
    sh'.executed.count id + handling id l = sh.executed.count id + handling id l' := by
  cases h with
  | @call id' =>
      simp only [handling, List.count_append, List.count_singleton, beq_iff_eq,
        Option.some.injEq]
      omega
  | handleAdd => exact absurd rfl hpc
  | handleReturn => exact absurd rfl hpc
  | add hadd => exact hl.elim
  | _ => rfl

theorem added_of_serving (h : WorkerStep a sh l sh' l') (hl : Serving l) :
    sh'.added = sh.added := by
  cases h with
  | add hadd => exact hl.elim
  | _ => rfl

end Workers

/-! ## The invariant -/

/-- The connection that `main` has accepted and not appended yet. -/
def inHand (s : Server n) : List Conn :=
  match s.pool.client () with
  | some .lock | some .push => s.client.toList
  | _ => []

structure ServerInvariant (env : Env) (s : Server n) : Prop where
  serving : ∀ w, Serving (s.pool.worker w)
  client : s.pool.client () ≠ none → ∃ c, s.client = some c
  clients : s.clients.length = s.pool.shared.added
  accepted : s.accepted = s.clients ++ inHand s
  handled : ∀ id, (s.closed.map Prod.fst).count id + total (handling id) s.pool.worker =
    s.pool.shared.executed.count id
  closed : ∀ id bytes, (id, bytes) ∈ s.closed →
    ∃ c, s.clients[id]? = some c ∧ Returns (handle env c.recv c.sends) bytes

theorem serverInvariant_create : ServerInvariant env (serverCreate n) where
  serving := fun _ => trivial
  client := fun h => absurd rfl h
  clients := rfl
  accepted := rfl
  handled := fun id => by
    have hworkers : total (handling id) (serverCreate n).pool.worker = 0 :=
      total_eq_zero fun _ => rfl
    rw [hworkers]
    rfl
  closed := fun _ _ h => absurd h List.not_mem_nil

section Kept

variable {s : Server n}

theorem serverInvariant_accept (h : ServerInvariant env s) (c : Conn)
    (hpc : s.pool.client () = none) :
    ServerInvariant env { s with
      pool := { s.pool with client := Function.update s.pool.client () (some .lock) }
      client := some c
      accepted := s.accepted ++ [c] } where
  serving := h.serving
  client := fun _ => ⟨c, rfl⟩
  clients := h.clients
  accepted := by
    have hold : s.accepted = s.clients := by
      rw [h.accepted, inHand, hpc]
      exact List.append_nil _
    rw [hold]
    rfl
  handled := h.handled
  closed := h.closed

/-- What a step of `simple_thread_pool_add_task` does to the connection in hand. -/
theorem inHand_addTask {sh' : Shared n Unit} {pc : AddPc} {pc' : Option AddPc} {c : Conn}
    (hpc : s.pool.client () = some pc) (hc : s.client = some c)
    (hstep : AddStep (Sum.inr ()) s.pool.shared pc sh' pc') (more : List Conn) :
    (if pc = .push then s.client.toList else []) ++
        inHand { s with
          pool := { s.pool with
            shared := sh', client := Function.update s.pool.client () pc' }
          clients := more } = inHand s ∧
      sh'.added = s.pool.shared.added + (if pc = .push then s.client.toList else []).length := by
  rw [inHand, inHand, hpc, hc]
  cases hstep <;> simp

theorem serverInvariant_addTask (h : ServerInvariant env s) {pc : AddPc} {sh : Shared n Unit}
    {pc' : Option AddPc} (hpc : s.pool.client () = some pc)
    (hstep : AddStep (Sum.inr ()) s.pool.shared pc sh pc') :
    ServerInvariant env { s with
      pool := { s.pool with shared := sh, client := Function.update s.pool.client () pc' }
      clients := s.clients ++ if pc = .push then s.client.toList else [] } := by
  obtain ⟨c, hc⟩ := h.client (by rw [hpc]; exact Option.some_ne_none pc)
  obtain ⟨hhand, hadded⟩ := inHand_addTask hpc hc hstep
    (s.clients ++ if pc = .push then s.client.toList else [])
  obtain ⟨-, hexecuted, -⟩ := hstep.order
  exact {
    serving := h.serving
    client := fun _ => ⟨c, hc⟩
    clients := by
      show (s.clients ++ _).length = sh.added
      rw [List.length_append, h.clients, hadded]
    accepted := by
      rw [List.append_assoc, hhand]
      exact h.accepted
    handled := fun id => by
      show _ = sh.executed.count id
      rw [hexecuted]
      exact h.handled id
    closed := fun id bytes hmem => by
      obtain ⟨c', hget, hbytes⟩ := h.closed id bytes hmem
      refine ⟨c', ?_, hbytes⟩
      rw [List.getElem?_append_left (List.getElem?_eq_some_iff.mp hget).1]
      exact hget }

theorem serverInvariant_worker (h : ServerInvariant env s) (hquit : s.pool.shared.quit = false)
    {w : Fin n} {sh : Shared n Unit} {l : Worker} (hpc : (s.pool.worker w).pc ≠ .handle)
    (hstep : WorkerStep (Sum.inl w) s.pool.shared (s.pool.worker w) sh l) :
    ServerInvariant env { s with
      pool := { s.pool with shared := sh, worker := Function.update s.pool.worker w l } } where
  serving := fun w' => by
    by_cases hww : w' = w
    · subst hww
      show Serving (Function.update s.pool.worker w' l w')
      rw [Function.update_self]
      exact serving_step hstep hquit hpc (h.serving w')
    · show Serving (Function.update s.pool.worker w l w')
      rw [Function.update_of_ne hww]
      exact h.serving w'
  client := h.client
  clients := h.clients.trans (added_of_serving hstep (h.serving w)).symm
  accepted := h.accepted
  handled := fun id => by
    have hlocal := handling_step hstep hpc (h.serving w) id
    have hsum := total_update (handling id) s.pool.worker w l
    have hold := h.handled id
    show (s.closed.map Prod.fst).count id +
      total (handling id) (Function.update s.pool.worker w l) = sh.executed.count id
    omega
  closed := h.closed

theorem serverInvariant_handle (h : ServerInvariant env s) {w : Fin n} {id : ℕ} {c : Conn}
    {bytes : List UInt8} (hw : s.pool.worker w = ⟨.handle, some id⟩)
    (hc : s.clients[id]? = some c) (hbytes : Returns (handle env c.recv c.sends) bytes) :
    ServerInvariant env { s with
      pool := { s.pool with worker := Function.update s.pool.worker w ⟨.test, some id⟩ }
      closed := s.closed ++ [(id, bytes)] } where
  serving := fun w' => by
    by_cases hww : w' = w
    · subst hww
      show Serving (Function.update s.pool.worker w' _ w')
      rw [Function.update_self]
      trivial
    · show Serving (Function.update s.pool.worker w _ w')
      rw [Function.update_of_ne hww]
      exact h.serving w'
  client := h.client
  clients := h.clients
  accepted := h.accepted
  handled := fun id' => by
    have hsum := total_update (handling id') s.pool.worker w ⟨.test, some id⟩
    have hold := h.handled id'
    rw [hw] at hsum
    simp only [handling, Option.some.injEq] at hsum
    show ((s.closed ++ [(id, bytes)]).map Prod.fst).count id' +
      total (handling id') (Function.update s.pool.worker w ⟨.test, some id⟩) = _
    rw [List.map_append, List.count_append, List.map_singleton, List.count_singleton]
    simp only [beq_iff_eq]
    omega
  closed := fun id' bytes' hmem => by
    rcases List.mem_append.mp hmem with hmem | hmem
    · exact h.closed id' bytes' hmem
    · obtain ⟨rfl, rfl⟩ := Prod.mk.inj (List.mem_singleton.mp hmem)
      exact ⟨c, hc, hbytes⟩

end Kept

theorem serverInvariant {s : Server n} (h : ServerReachable env s) : ServerInvariant env s := by
  induction h with
  | refl => exact serverInvariant_create
  | @tail s t hs hstep ih =>
      cases hstep with
      | accept c hpc => exact serverInvariant_accept ih c hpc
      | handle w hw hc hbytes => exact serverInvariant_handle ih hw hc hbytes
      | inner hinner =>
          cases hinner with
          | addTask hpc hadd => exact serverInvariant_addTask ih hpc hadd
          | worker w hpc hworker =>
              exact serverInvariant_worker ih (quit_of_reachable hs) hpc hworker

/-! ## A server that has settled -/

section Settled

variable {s : Server n}

/-- A worker goes on unless it is in a handler, waits for a task, or waits for the lock. -/
theorem exists_workerStep {l : Worker} (hl : Serving l) (hpc : l.pc ≠ .handle)
    (a : Thread n Unit) (sh : Shared n Unit) (hwait : l.pc = .wait → 0 < sh.sem)
    (hlock : l.pc = .lock → sh.lock = none) : ∃ sh' l', WorkerStep a sh l sh' l' := by
  obtain ⟨pc, task⟩ := l
  cases pc with
  | test =>
      cases hquit : sh.quit with
      | false => exact ⟨_, _, .testRun hquit⟩
      | true => exact ⟨_, _, .testQuit hquit⟩
  | wait => exact ⟨_, _, .wait (hwait rfl)⟩
  | recheck =>
      cases hquit : sh.quit with
      | false => exact ⟨_, _, .recheckRun hquit⟩
      | true => exact ⟨_, _, .recheckQuit hquit⟩
  | lock => exact ⟨_, _, .lock (hlock rfl)⟩
  | dequeue =>
      cases htasks : sh.tasks with
      | nil => exact ⟨_, _, .dequeueEmpty htasks⟩
      | cons id rest => exact ⟨_, _, .dequeue htasks⟩
  | unlock => exact ⟨_, _, .unlock⟩
  | call =>
      cases task with
      | none => exact ⟨_, _, .callNull⟩
      | some id => exact ⟨_, _, .call⟩
  | handle => exact absurd rfl hpc
  | add pc => exact hl.elim
  | exited => exact hl.elim

/-- The holder of the lock goes on. -/
theorem lock_of_settled (h : ServerReachable env s) (hs : Settled s) :
    s.pool.shared.lock = none := by
  cases hlock : s.pool.shared.lock with
  | none => rfl
  | some a =>
      have hin := inside_of_lock (pool_reachable h).1 hlock
      cases a with
      | inl w =>
          have hpcin : (s.pool.worker w).pc.Inside := hin
          have hne : ∀ pc, ¬ pc.Inside → (s.pool.worker w).pc ≠ pc := by
            rintro pc hout rfl
            exact hout hpcin
          obtain ⟨sh, l, hstep⟩ := exists_workerStep ((serverInvariant h).serving w)
            (hne .handle not_false) (Sum.inl w) s.pool.shared
            (fun hpc => absurd hpc (hne .wait not_false))
            (fun hpc => absurd hpc (hne .lock not_false))
          exact absurd (.worker w (hne .handle not_false) hstep) (hs _)
      | inr k =>
          obtain ⟨pc, hpc, hpcin⟩ := hin
          cases pc with
          | push => exact absurd (.addTask hpc .push) (hs _)
          | unlock => exact absurd (.addTask hpc .unlock) (hs _)
          | lock => exact hpcin.elim
          | post => exact hpcin.elim

/-- `main` is at `accept`. -/
theorem client_of_settled (h : ServerReachable env s) (hs : Settled s) :
    s.pool.client () = none := by
  cases hpc : s.pool.client () with
  | none => rfl
  | some pc =>
      cases pc with
      | lock => exact absurd (.addTask hpc (.lock (lock_of_settled h hs))) (hs _)
      | push => exact absurd (.addTask hpc .push) (hs _)
      | unlock => exact absurd (.addTask hpc .unlock) (hs _)
      | post => exact absurd (.addTask hpc .post) (hs _)

/-- Every worker waits for a task, or is in a handler. -/
theorem worker_of_settled (h : ServerReachable env s) (hs : Settled s) (w : Fin n) :
    ((s.pool.worker w).pc = .wait ∧ s.pool.shared.sem = 0) ∨
      ∃ id, s.pool.worker w = ⟨.handle, some id⟩ := by
  have hserving := (serverInvariant h).serving w
  by_cases hpc : (s.pool.worker w).pc = .handle
  · right
    generalize s.pool.worker w = l at hserving hpc
    obtain ⟨pc, task⟩ := l
    obtain rfl : pc = .handle := hpc
    obtain ⟨id, rfl⟩ := hserving
    exact ⟨id, rfl⟩
  · left
    by_contra hnot
    obtain ⟨sh, l, hstep⟩ := exists_workerStep hserving hpc (Sum.inl w) s.pool.shared
      (fun hwait => Nat.pos_of_ne_zero fun hsem => hnot ⟨hwait, hsem⟩)
      (fun _ => lock_of_settled h hs)
    exact hs _ (.worker w hpc hstep)

/-- The worker is not between two of its waits, or in a handler. -/
theorem weight_of_settled (h : ServerReachable env s) (hs : Settled s) {weight : Worker → ℕ}
    (hwait : ∀ l : Worker, l.pc = .wait → weight l = 0)
    (hhandle : ∀ w id, s.pool.worker w = ⟨.handle, some id⟩ → weight ⟨.handle, some id⟩ = 0) :
    total weight s.pool.worker = 0 :=
  total_eq_zero fun w => by
    rcases worker_of_settled h hs w with ⟨hpc, -⟩ | ⟨id, hw⟩
    · exact hwait _ hpc
    · rw [hw]
      exact hhandle w id hw

/-- When a worker waits for a task there is none. -/
theorem tasks_of_settled (h : ServerReachable env s) (hs : Settled s)
    (hsem : s.pool.shared.sem = 0) : s.pool.shared.tasks = [] := by
  have hbalance := (invariant_reachable (pool_reachable h).1).balance (quit_of_reachable h)
  have htokens : total Worker.tokens s.pool.worker = 0 :=
    weight_of_settled h hs (fun l hpc => by rw [Worker.tokens, hpc]) (fun _ _ _ => rfl)
  have howes : total clientOwes s.pool.client = 0 := by
    refine total_eq_zero fun i => ?_
    cases i
    rw [client_of_settled h hs, clientOwes]
  rw [hsem, htokens, howes] at hbalance
  exact List.length_eq_zero_iff.mp hbalance

/-- A connection that has been taken is closed or in a handler. -/
theorem closed_or_handling (h : ServerReachable env s) (hs : Settled s) {id : ℕ}
    (hid : id ∈ s.pool.shared.dequeued) :
    id ∈ s.closed.map Prod.fst ∨ ∃ w, s.pool.worker w = ⟨.handle, some id⟩ := by
  rw [or_iff_not_imp_right]
  intro hnone
  have hholds : total (Worker.holds id) s.pool.worker = 0 :=
    weight_of_settled h hs (fun l hpc => by rw [Worker.holds, hpc]) (fun _ _ _ => rfl)
  have hhandling : total (handling id) s.pool.worker = 0 :=
    weight_of_settled h hs (fun l hpc => by rw [handling, hpc]) fun w id' hw => by
      have hne : id' ≠ id := fun heq => hnone ⟨w, heq ▸ hw⟩
      simp [handling, hne]
  have hexecuted := (invariant_reachable (pool_reachable h).1).executed id
  have hhandled := (serverInvariant h).handled id
  have hpos := List.count_pos_iff.mpr hid
  exact List.count_pos_iff.mp (by omega)

end Settled

/-! ## The connections -/

section Connections

variable {s : Server n}

/-- Connections are taken in the order in which they have been appended. -/
theorem dequeued_eq_range (h : ServerReachable env s) :
    s.pool.shared.dequeued ++ s.pool.shared.tasks = List.range s.clients.length := by
  obtain ⟨hreach, hidle⟩ := pool_reachable h
  have hpool := invariant_reachable hreach
  have horder := hpool.order
  rw [hpool.destroyed (by rw [hidle]; exact not_false), List.append_nil] at horder
  rw [horder, (serverInvariant h).clients]

theorem clients_accepted (h : ServerReachable env s) : s.clients <+: s.accepted :=
  ⟨inHand s, (serverInvariant h).accepted.symm⟩

/-- What has not been taken was accepted behind all that has been taken. -/
theorem lt_of_dequeued (h : ServerReachable env s) {id id' : ℕ}
    (hid : id ∉ s.pool.shared.dequeued) (hid' : id' ∈ s.pool.shared.dequeued) : id' < id := by
  have hlt : s.pool.shared.dequeued.length ≤ s.clients.length := by
    have hlength := congrArg List.length (dequeued_eq_range h)
    rw [List.length_append, List.length_range] at hlength
    omega
  have htake : s.pool.shared.dequeued = List.range s.pool.shared.dequeued.length := by
    have htaken := congrArg (List.take s.pool.shared.dequeued.length) (dequeued_eq_range h)
    rwa [List.take_left, List.take_range, min_eq_left hlt] at htaken
  rw [htake, List.mem_range] at hid hid'
  omega

theorem dequeued_of_handling (h : ServerReachable env s) {w : Fin n} {id : ℕ}
    (hw : s.pool.worker w = ⟨.handle, some id⟩) : id ∈ s.pool.shared.dequeued := by
  have hone : handling id (s.pool.worker w) = 1 := by
    rw [hw]
    exact if_pos rfl
  have hle := weight_le_total (handling id) s.pool.worker w
  have hhandled := (serverInvariant h).handled id
  have hexecuted := (invariant_reachable (pool_reachable h).1).executed id
  exact List.count_pos_iff.mp (by omega)

end Connections

/-- Connections are taken in the order in which they have been accepted, and each is closed
at most once, with what `handle` sends for it.  When the server has settled, a connection
that is neither closed nor in a handler waits behind others: every worker is in the handler
of one that was accepted before. -/
structure Served (env : Env) (s : Server n) : Prop where
  order : s.pool.shared.dequeued <+: List.range s.accepted.length
  once : (s.closed.map Prod.fst).Nodup
  answered : ∀ id bytes, (id, bytes) ∈ s.closed →
    ∃ c, s.accepted[id]? = some c ∧ Returns (handle env c.recv c.sends) bytes
  busy : Settled s → ∀ id < s.accepted.length,
    id ∈ s.closed.map Prod.fst ∨ (∃ w, s.pool.worker w = ⟨.handle, some id⟩) ∨
      ∀ w, ∃ id', id' < id ∧ s.pool.worker w = ⟨.handle, some id'⟩

/-- What a server without files has around it. -/
def withoutFiles : Env where
  regexec := Url.regexecAll
  rootPath := .ofString "/srv/www"
  stat := fun _ => none
  stSize := fun _ => 0
  fopen := fun _ => none

end LibSimple.Httpsrv
