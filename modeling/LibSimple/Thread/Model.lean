import LibSimple.Support.SerialServer
import Mathlib.Logic.Function.Basic

/-!
# Requests to a thread

`thread.c` as a step relation.  Client threads call `simple_thread_req`, and the
thread itself obtains a request with `simple_thread_getreq` or
`simple_thread_chkreq` and then calls `simple_thread_reply` once.  Every access
to shared data is one step.  A wait on a semaphore returns only with a token or,
in `simple_thread_chkreq`, with a timeout.
-/

namespace LibSimple.Thread

/-- The fields of `thread_t` that clients and the thread use, and a record of what
has happened: a call is accepted when it acquires the mutex. -/
structure Shared (κ Req Rpl : Type) where
  mutex : Option κ
  semReq : ℕ
  semRpl : ℕ
  req : Req
  rpl : Rpl
  log : SerialServer.Log κ Req Rpl

/-- Program points of `simple_thread_req`, with its argument and, before the
mutex is unlocked, its local variable `rpl`. -/
inductive ClientPc (Req Rpl : Type)
  | idle
  | lock (req : Req)
  | store (req : Req)
  | post (req : Req)
  | wait (req : Req)
  | read (req : Req)
  | unlock (req : Req) (rpl : Rpl)

/-- Program points of the thread: `read` is the read of `th->req` in both
`simple_thread_getreq` and `simple_thread_chkreq`, `serve` is its own work on a
request, `store` and `post` are those of `simple_thread_reply`. -/
inductive WorkerPc (Req Rpl : Type)
  | idle
  | getreq
  | chkreq
  | read
  | serve (req : Req)
  | store (req : Req) (rpl : Rpl)
  | post

structure State (κ Req Rpl : Type) where
  shared : Shared κ Req Rpl
  client : κ → ClientPc Req Rpl
  worker : WorkerPc Req Rpl

variable {κ Req Rpl : Type}

/-- `simple_thread_create`, which leaves `req` and `rpl` as they are found. -/
def simpleThreadCreate (req : Req) (rpl : Rpl) : State κ Req Rpl where
  shared := ⟨none, 0, 0, req, rpl, ⟨[], [], [], []⟩⟩
  client := fun _ => .idle
  worker := .idle

/-- A step of `simple_thread_req` in client `k`. -/
inductive ClientStep (k : κ) :
    Shared κ Req Rpl → ClientPc Req Rpl → Shared κ Req Rpl → ClientPc Req Rpl → Prop
  | call {sh r} : ClientStep k sh .idle sh (.lock r)
  | lock {sh r} (h : sh.mutex = none) :
      ClientStep k sh (.lock r)
        { sh with mutex := some k, log.accepted := sh.log.accepted ++ [(k, r)] } (.store r)
  | store {sh r} : ClientStep k sh (.store r) { sh with req := r } (.post r)
  | post {sh r} : ClientStep k sh (.post r) { sh with semReq := sh.semReq + 1 } (.wait r)
  | wait {sh r} (h : 0 < sh.semRpl) :
      ClientStep k sh (.wait r) { sh with semRpl := sh.semRpl - 1 } (.read r)
  | read {sh r} : ClientStep k sh (.read r) sh (.unlock r sh.rpl)
  | unlock {sh r v} :
      ClientStep k sh (.unlock r v)
        { sh with mutex := none, log.returned := sh.log.returned ++ [(k, r, v)] } .idle

/-- A step of the thread. -/
inductive WorkerStep :
    Shared κ Req Rpl → WorkerPc Req Rpl → Shared κ Req Rpl → WorkerPc Req Rpl → Prop
  | getreq {sh} : WorkerStep sh .idle sh .getreq
  | getreqWait {sh} (h : 0 < sh.semReq) :
      WorkerStep sh .getreq { sh with semReq := sh.semReq - 1 } .read
  | chkreq {sh} : WorkerStep sh .idle sh .chkreq
  | chkreqWait {sh} (h : 0 < sh.semReq) :
      WorkerStep sh .chkreq { sh with semReq := sh.semReq - 1 } .read
  | chkreqTimeout {sh} : WorkerStep sh .chkreq sh .idle
  | read {sh} :
      WorkerStep sh .read { sh with log.obtained := sh.log.obtained ++ [sh.req] }
        (.serve sh.req)
  | reply {sh r v} : WorkerStep sh (.serve r) sh (.store r v)
  | store {sh r v} :
      WorkerStep sh (.store r v)
        { sh with rpl := v, log.replied := sh.log.replied ++ [(r, v)] } .post
  | post {sh} : WorkerStep sh .post { sh with semRpl := sh.semRpl + 1 } .idle

inductive Step [DecidableEq κ] : State κ Req Rpl → State κ Req Rpl → Prop
  | client {s} (k : κ) {sh pc} (h : ClientStep k s.shared (s.client k) sh pc) :
      Step s { s with shared := sh, client := Function.update s.client k pc }
  | worker {s sh pc} (h : WorkerStep s.shared s.worker sh pc) :
      Step s { s with shared := sh, worker := pc }

/-- The states that a thread and its clients can be in. -/
def Reachable [DecidableEq κ] (s : State κ Req Rpl) : Prop :=
  ∃ req rpl, Relation.ReflTransGen Step (simpleThreadCreate req rpl) s

end LibSimple.Thread
