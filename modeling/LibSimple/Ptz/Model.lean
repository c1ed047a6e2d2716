import LibSimple.Support.Transition

/-!
# The thread of a PTZ camera

`Ptz.cpp` as a step relation.  Other threads call `Ptz::add` and
`Ptz::reset_ptz`, the thread of the object runs `Ptz::run`, and one thread calls
`Ptz::~Ptz`.  Every access to shared data is one step, a wait on the semaphore
returns only with a token, and `join` returns when `Ptz::run` has.
-/

namespace LibSimple.Ptz

/-- What `Ptz::reset_ptz` works with: whether a device is open, and the task that
`task_ptz_reset` makes of the position and the zoom it is given. -/
structure Device (Task : Type) where
  ptz : Bool
  taskPtzReset : ℤ → ℤ → ℤ → Task

/-- The members of `Ptz` that several threads use.  The mutex is held by the
thread of the object (`none`) or by a caller. -/
structure Shared (κ Task : Type) where
  quit : Bool
  sem : ℕ
  cs : Option (Option κ)
  tasks : List Task

/-- Program points of `Ptz::add`, with its argument until that is in the queue. -/
inductive AddPc (Task : Type)
  | lock (task : Task)
  | pushBack (task : Task)
  | unlock
  | post

/-- Where the thread of the object calls `Ptz::add` or `Ptz::reset_ptz`: at the
start of `Ptz::run`, in a `one_loop` of a derived class, or in the handler of a
task. -/
inductive Caller (Task : Type)
  | run
  | oneLoop
  | handle (task : Task)

/-- Program points of `Ptz::run`.  The points `nextTask`, `popFront` and `unlock`
are those of `Ptz::next_task`, the last with its result. -/
inductive WorkerPc (Task : Type)
  | reset
  | test
  | wait
  | oneLoop
  | nextTask
  | popFront
  | unlock (task : Option Task)
  | execTask (task : Task)
  | add (pc : AddPc Task) (caller : Caller Task)
  | exited

/-- Program points of `Ptz::~Ptz`. -/
inductive DestroyPc
  | idle
  | join
  | done
  deriving DecidableEq

structure State (κ Task : Type) where
  shared : Shared κ Task
  worker : WorkerPc Task
  client : κ → Option (AddPc Task)
  destroy : DestroyPc

/-- `Ptz::Ptz` after `start`, with no call of another function begun. -/
def create (κ Task : Type) : State κ Task where
  shared := ⟨false, 0, none, []⟩
  worker := .reset
  client := fun _ => none
  destroy := .idle

variable {κ Task : Type}

/-- The point at which a call of `Ptz::add` or `Ptz::reset_ptz` begins.  Without a
task `Ptz::add` only posts, and without a device `Ptz::reset_ptz` does
nothing. -/
inductive Call (dev : Device Task) : AddPc Task → Prop
  | add (task : Task) : Call dev (.lock task)
  | addNull : Call dev .post
  | resetPtz (h v z : ℤ) (hptz : dev.ptz = true) : Call dev (.lock (dev.taskPtzReset h v z))

/-- A step of `Ptz::add` in thread `a`; `none` is its return. -/
inductive AddStep (a : Option κ) :
    Shared κ Task → AddPc Task → Shared κ Task → Option (AddPc Task) → Prop
  | lock {sh t} (h : sh.cs = none) :
      AddStep a sh (.lock t) { sh with cs := some a } (some (.pushBack t))
  | pushBack {sh t} :
      AddStep a sh (.pushBack t) { sh with tasks := sh.tasks ++ [t] } (some .unlock)
  | unlock {sh} : AddStep a sh .unlock { sh with cs := none } (some .post)
  | post {sh} : AddStep a sh .post { sh with sem := sh.sem + 1 } none

/-- Where the thread of the object goes on after a call. -/
def Caller.resume : Caller Task → WorkerPc Task
  | .run => .test
  | .oneLoop => .oneLoop
  | .handle t => .execTask t

/-- Where the thread of the object goes on after a step of `Ptz::add`. -/
def afterAdd (c : Caller Task) : Option (AddPc Task) → WorkerPc Task
  | some pc => .add pc c
  | none => c.resume

/-- A step of `Ptz::run`. -/
inductive WorkerStep (dev : Device Task) :
    Shared κ Task → WorkerPc Task → Shared κ Task → WorkerPc Task → Prop
  | reset {sh} (h v z : ℤ) (hptz : dev.ptz = true) :
      WorkerStep dev sh .reset sh (.add (.lock (dev.taskPtzReset h v z)) .run)
  | resetNone {sh} (hptz : dev.ptz = false) : WorkerStep dev sh .reset sh .test
  | testRun {sh} (h : sh.quit = false) : WorkerStep dev sh .test sh .wait
  | testQuit {sh} (h : sh.quit = true) : WorkerStep dev sh .test sh .exited
  | wait {sh} (h : 0 < sh.sem) : WorkerStep dev sh .wait { sh with sem := sh.sem - 1 } .oneLoop
  | oneLoopCall {sh pc} (h : Call dev pc) : WorkerStep dev sh .oneLoop sh (.add pc .oneLoop)
  | oneLoopReturn {sh} : WorkerStep dev sh .oneLoop sh .nextTask
  | nextTask {sh} (h : sh.cs = none) :
      WorkerStep dev sh .nextTask { sh with cs := some none } .popFront
  | popFront {sh t rest} (h : sh.tasks = t :: rest) :
      WorkerStep dev sh .popFront { sh with tasks := rest } (.unlock (some t))
  | popFrontEmpty {sh} (h : sh.tasks = []) : WorkerStep dev sh .popFront sh (.unlock none)
  | unlock {sh t} : WorkerStep dev sh (.unlock (some t)) { sh with cs := none } (.execTask t)
  | unlockNull {sh} : WorkerStep dev sh (.unlock none) { sh with cs := none } .test
  | execTaskCall {sh t pc} (h : Call dev pc) :
      WorkerStep dev sh (.execTask t) sh (.add pc (.handle t))
  | execTaskReturn {sh t} : WorkerStep dev sh (.execTask t) sh .nextTask
  | add {sh pc c sh' pc'} (h : AddStep none sh pc sh' pc') :
      WorkerStep dev sh (.add pc c) sh' (afterAdd c pc')

/-- A step of `Ptz::~Ptz`, which sets `quit_` and joins the thread. -/
inductive DestroyStep : State κ Task → State κ Task → Prop
  | setQuit {s} (h : s.destroy = .idle) :
      DestroyStep s { s with shared := { s.shared with quit := true }, destroy := .join }
  | join {s} (h : s.destroy = .join) (hexited : s.worker = .exited) :
      DestroyStep s { s with destroy := .done }

/-- One step of any thread.  A call by another thread begins before the object is
gone. -/
inductive Step [DecidableEq κ] (dev : Device Task) : State κ Task → State κ Task → Prop
  | worker {s sh pc} (h : WorkerStep dev s.shared s.worker sh pc) :
      Step dev s { s with shared := sh, worker := pc }
  | client {s} (k : κ) {pc sh pc'} (hpc : s.client k = some pc)
      (h : AddStep (some k) s.shared pc sh pc') :
      Step dev s { s with shared := sh, client := Function.update s.client k pc' }
  | call {s} (k : κ) {pc} (hpc : s.client k = none) (h : s.destroy ≠ .done) (hcall : Call dev pc) :
      Step dev s { s with client := Function.update s.client k (some pc) }
  | destroy {s t} (h : DestroyStep s t) : Step dev s t

/-- The states that the object and its callers can be in. -/
def Reachable [DecidableEq κ] (dev : Device Task) (s : State κ Task) : Prop :=
  Relation.ReflTransGen (Step dev) (create κ Task) s

end LibSimple.Ptz
