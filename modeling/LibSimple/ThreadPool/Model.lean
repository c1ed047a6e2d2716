import LibSimple.Support.Transition

/-!
# The thread pool

`threadpool.c` as a step relation.  The worker threads run `_thread_proc`, other
threads and the handlers of tasks call `simple_thread_pool_add_task`, and one
thread calls `simple_thread_pool_destroy`.  Every access to shared data is one
step, and a wait on the semaphore returns only with a token.

A task is named by its place in the order in which tasks were appended to the
list.  The fields from `added` on are a record of what has happened.
-/

namespace LibSimple.ThreadPool

/-- Threads that take the lock: workers and callers of
`simple_thread_pool_add_task`. -/
abbrev Thread (n : ℕ) (κ : Type) := Fin n ⊕ κ

/-- What all threads can see. -/
structure Shared (n : ℕ) (κ : Type) where
  quit : Bool
  sem : ℕ
  lock : Option (Thread n κ)
  tasks : List ℕ
  added : ℕ
  dequeued : List ℕ
  executed : List ℕ
  destroyed : List ℕ

/-- Program points of `simple_thread_pool_add_task`. -/
inductive AddPc
  | lock
  | push
  | unlock
  | post
  deriving DecidableEq

/-- Program points of `_thread_proc`.  A handler is either at work of its own or
inside a call of `simple_thread_pool_add_task`. -/
inductive WorkerPc
  | test
  | wait
  | recheck
  | lock
  | dequeue
  | unlock
  | call
  | handle
  | add (pc : AddPc)
  | exited
  deriving DecidableEq

/-- A worker with its local variable `task`, which is null at first and keeps
its value from one round to the next. -/
structure Worker where
  pc : WorkerPc
  task : Option ℕ
  deriving DecidableEq

/-- Program points of `simple_thread_pool_destroy`: `post i` after `i` posts,
`join ws` with the threads `ws` still in the list, the first of them being
waited for. -/
inductive DestroyPc (n : ℕ)
  | idle
  | setQuit
  | post (i : ℕ)
  | join (ws : List (Fin n))
  | freeTasks
  | destroyLock
  | destroySem
  | freePool
  | done

structure Pool (n : ℕ) (κ : Type) where
  shared : Shared n κ
  worker : Fin n → Worker
  client : κ → Option AddPc
  destroy : DestroyPc n

/-- `simple_thread_pool_create`, with no call of another function begun. -/
def simpleThreadPoolCreate (n : ℕ) (κ : Type) : Pool n κ where
  shared := ⟨false, 0, none, [], 0, [], [], []⟩
  worker := fun _ => ⟨.test, none⟩
  client := fun _ => none
  destroy := .idle

variable {n : ℕ} {κ : Type}

/-- A step of `simple_thread_pool_add_task` in thread `a`; `none` is its
return. -/
inductive AddStep (a : Thread n κ) : Shared n κ → AddPc → Shared n κ → Option AddPc → Prop
  | lock {sh} (h : sh.lock = none) : AddStep a sh .lock { sh with lock := some a } (some .push)
  | push {sh} :
      AddStep a sh .push { sh with tasks := sh.tasks ++ [sh.added], added := sh.added + 1 }
        (some .unlock)
  | unlock {sh} : AddStep a sh .unlock { sh with lock := none } (some .post)
  | post {sh} : AddStep a sh .post { sh with sem := sh.sem + 1 } none

/-- Where a handler goes on after a step of `simple_thread_pool_add_task`. -/
def afterAdd : Option AddPc → WorkerPc
  | some pc => .add pc
  | none => .handle

/-- A step of `_thread_proc` in worker `a`. -/
inductive WorkerStep (a : Thread n κ) : Shared n κ → Worker → Shared n κ → Worker → Prop
  | testRun {sh t} (h : sh.quit = false) : WorkerStep a sh ⟨.test, t⟩ sh ⟨.wait, t⟩
  | testQuit {sh t} (h : sh.quit = true) : WorkerStep a sh ⟨.test, t⟩ sh ⟨.exited, t⟩
  | wait {sh t} (h : 0 < sh.sem) :
      WorkerStep a sh ⟨.wait, t⟩ { sh with sem := sh.sem - 1 } ⟨.recheck, t⟩
  | recheckRun {sh t} (h : sh.quit = false) : WorkerStep a sh ⟨.recheck, t⟩ sh ⟨.lock, t⟩
  | recheckQuit {sh t} (h : sh.quit = true) : WorkerStep a sh ⟨.recheck, t⟩ sh ⟨.exited, t⟩
  | lock {sh t} (h : sh.lock = none) :
      WorkerStep a sh ⟨.lock, t⟩ { sh with lock := some a } ⟨.dequeue, t⟩
  | dequeue {sh t id rest} (h : sh.tasks = id :: rest) :
      WorkerStep a sh ⟨.dequeue, t⟩
        { sh with tasks := rest, dequeued := sh.dequeued ++ [id] } ⟨.unlock, some id⟩
  | dequeueEmpty {sh t} (h : sh.tasks = []) : WorkerStep a sh ⟨.dequeue, t⟩ sh ⟨.unlock, t⟩
  | unlock {sh t} : WorkerStep a sh ⟨.unlock, t⟩ { sh with lock := none } ⟨.call, t⟩
  | call {sh id} :
      WorkerStep a sh ⟨.call, some id⟩ { sh with executed := sh.executed ++ [id] }
        ⟨.handle, some id⟩
  | callNull {sh} : WorkerStep a sh ⟨.call, none⟩ sh ⟨.test, none⟩
  | handleAdd {sh t} : WorkerStep a sh ⟨.handle, t⟩ sh ⟨.add .lock, t⟩
  | add {sh t pc sh' pc'} (h : AddStep a sh pc sh' pc') :
      WorkerStep a sh ⟨.add pc, t⟩ sh' ⟨afterAdd pc', t⟩
  | handleReturn {sh t} : WorkerStep a sh ⟨.handle, t⟩ sh ⟨.test, t⟩

/-- The list of pending tasks is being freed, or has been. -/
def DestroyPc.Freeing : DestroyPc n → Prop
  | .freeTasks | .destroyLock | .destroySem | .freePool | .done => True
  | _ => False

/-- A step of `simple_thread_pool_destroy`.  The workers are joined in the order
of the list, which is that of `list_add`.  The caller's part is that no other
thread is still adding a task when the list is freed. -/
inductive DestroyStep : Pool n κ → Pool n κ → Prop
  | begin {s} (h : s.destroy = .idle) : DestroyStep s { s with destroy := .setQuit }
  | setQuit {s} (h : s.destroy = .setQuit) :
      DestroyStep s { s with shared := { s.shared with quit := true }, destroy := .post 0 }
  | post {s i} (h : s.destroy = .post i) (hi : i < n) :
      DestroyStep s { s with
        shared := { s.shared with sem := s.shared.sem + 1 }, destroy := .post (i + 1) }
  | posted {s} (h : s.destroy = .post n) :
      DestroyStep s { s with destroy := .join (List.finRange n).reverse }
  | join {s w ws} (h : s.destroy = .join (w :: ws)) (hw : (s.worker w).pc = .exited) :
      DestroyStep s { s with destroy := .join ws }
  | joined {s} (h : s.destroy = .join []) (hclients : ∀ k, s.client k = none) :
      DestroyStep s { s with destroy := .freeTasks }
  | freeTask {s id rest} (h : s.destroy = .freeTasks) (htasks : s.shared.tasks = id :: rest) :
      DestroyStep s { s with
        shared := { s.shared with tasks := rest, destroyed := s.shared.destroyed ++ [id] } }
  | freedTasks {s} (h : s.destroy = .freeTasks) (htasks : s.shared.tasks = []) :
      DestroyStep s { s with destroy := .destroyLock }
  | destroyLock {s} (h : s.destroy = .destroyLock) :
      DestroyStep s { s with destroy := .destroySem }
  | destroySem {s} (h : s.destroy = .destroySem) : DestroyStep s { s with destroy := .freePool }
  | freePool {s} (h : s.destroy = .freePool) : DestroyStep s { s with destroy := .done }

/-- One step of any thread.  A call of `simple_thread_pool_add_task` by another
thread begins before the list of tasks is freed. -/
inductive Step [DecidableEq κ] : Pool n κ → Pool n κ → Prop
  | worker {s} (w : Fin n) {sh l} (h : WorkerStep (Sum.inl w) s.shared (s.worker w) sh l) :
      Step s { s with shared := sh, worker := Function.update s.worker w l }
  | client {s} (k : κ) {pc sh pc'} (hpc : s.client k = some pc)
      (h : AddStep (Sum.inr k) s.shared pc sh pc') :
      Step s { s with shared := sh, client := Function.update s.client k pc' }
  | addTask {s} (k : κ) (hpc : s.client k = none) (h : ¬ s.destroy.Freeing) :
      Step s { s with client := Function.update s.client k (some .lock) }
  | destroy {s t} (h : DestroyStep s t) : Step s t

/-- The states that a pool of `n` workers can be in. -/
def Reachable [DecidableEq κ] (s : Pool n κ) : Prop :=
  Relation.ReflTransGen Step (simpleThreadPoolCreate n κ) s

end LibSimple.ThreadPool
