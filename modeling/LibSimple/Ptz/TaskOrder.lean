import LibSimple.Ptz.Shutdown
import LibSimple.Support.Histories

/-!
# The order of the tasks of the PTZ thread

Tasks leave the queue at its head and are executed one at a time, so that they are
executed in the order in which `Ptz::add` has appended them.  The count of the semaphore
is not the length of the queue: one round of `Ptz::run` empties the queue with one token,
and a call without a task posts as well.  What keeps a task from being left behind is
that the thread goes back to its wait only after it has found the queue empty, and that
each call posts after it has appended.
-/

namespace LibSimple.Ptz

open Transition

variable {κ Task : Type} {dev : Device Task}

/-! ## What passes through the queue -/

/-- The tasks that are appended between two states. -/
def pushed (s t : State κ Task) : List Task := t.shared.tasks.drop s.shared.tasks.length

/-- The task whose execution begins between two states. -/
def started (s t : State κ Task) : List Task :=
  match s.worker, t.worker with
  | .unlock (some task), .execTask _ => [task]
  | _, _ => []

/-- The task that `Ptz::next_task` has taken out of the queue and not returned yet. -/
def WorkerPc.held : WorkerPc Task → List Task
  | .unlock (some task) => [task]
  | _ => []

/-- What the thread still has to execute. -/
def pending (s : State κ Task) : List Task := s.worker.held ++ s.shared.tasks

/-- Steps that leave the thread where it is start nothing. -/
theorem started_eq_nil {s t : State κ Task} (h : t.worker = s.worker) : started s t = [] := by
  rw [started, h]
  cases s.worker with
  | unlock task => cases task <;> rfl
  | _ => rfl

/-- A step of `Ptz::add` only appends. -/
theorem AddStep.tasks {a : Option κ} {sh sh' : Shared κ Task} {pc pc'}
    (h : AddStep a sh pc sh' pc') :
    sh'.tasks = sh.tasks ++ sh'.tasks.drop sh.tasks.length := by
  cases h with
  | pushBack => simp
  | _ => simp

theorem held_afterAdd (c : Caller Task) (pc : Option (AddPc Task)) : (afterAdd c pc).held = [] := by
  cases pc with
  | some pc => rfl
  | none => cases c <;> rfl

/-- A step of the thread takes tasks from the front and puts tasks at the back. -/
theorem WorkerStep.conserved {s : State κ Task} {sh pc}
    (h : WorkerStep dev s.shared s.worker sh pc) :
    started s { s with shared := sh, worker := pc } ++ (pc.held ++ sh.tasks) =
      pending s ++ sh.tasks.drop s.shared.tasks.length := by
  rw [pending, started]
  generalize s.worker = w at h ⊢
  generalize s.shared = sh₀ at h ⊢
  cases h with
  | popFront htasks => simp [WorkerPc.held, htasks]
  | add hadd =>
      rw [held_afterAdd]
      exact hadd.tasks
  | _ => simp [WorkerPc.held]

/-- A step of another thread only appends. -/
theorem conserved_of_worker_eq {s t : State κ Task} (hworker : t.worker = s.worker)
    (htasks : t.shared.tasks =
      s.shared.tasks ++ t.shared.tasks.drop s.shared.tasks.length) :
    started s t ++ pending t = pending s ++ pushed s t := by
  rw [started_eq_nil hworker, pending, pending, pushed, hworker, List.nil_append,
    List.append_assoc, ← htasks]

variable [DecidableEq κ]

/-- The queue conserves its tasks at every step. -/
theorem step_conserved {s t : State κ Task} (h : Step dev s t) :
    started s t ++ pending t = pending s ++ pushed s t := by
  cases h with
  | worker hstep => exact hstep.conserved
  | client k hpc hstep => exact conserved_of_worker_eq rfl hstep.tasks
  | call k hpc hlive hcall => exact conserved_of_worker_eq rfl (by simp)
  | destroy hstep =>
      cases hstep with
      | setQuit hidle => exact conserved_of_worker_eq rfl (by simp)
      | join hjoin hexited => exact conserved_of_worker_eq rfl (by simp)

/-- The tasks that have been appended: first those that are executed, then those that are
not executed yet. -/
theorem started_append_pending {run : List (State κ Task)}
    (hrun : (create κ Task :: run).IsChain (Step dev)) :
    along started (create κ Task) run ++ pending (run.getLastD (create κ Task)) =
      along pushed (create κ Task) run :=
  along_conserved (I := fun _ => True) (fun _ _ _ _ => trivial)
    (fun _ _ _ hstep => step_conserved hstep) trivial hrun

/-! ## No task is left behind -/

/-- A call has appended a task and has not posted yet. -/
def AddPc.Owes : AddPc Task → Prop
  | .unlock | .post => True
  | _ => False

/-- The thread does not come to `Ptz::next_task` before its next wait. -/
def WorkerPc.Rests : WorkerPc Task → Prop
  | .reset | .test | .wait | .unlock none | .add _ .run => True
  | _ => False

/-- The thread is in a call that has not posted yet. -/
def WorkerPc.Owes : WorkerPc Task → Prop
  | .add pc _ => pc.Owes
  | _ => False

/-- A token is there, or a call is going to post one. -/
def Awaited (s : State κ Task) : Prop :=
  0 < s.shared.sem ∨ s.worker.Owes ∨ ∃ k pc, s.client k = some pc ∧ pc.Owes

/-- While the thread does not look into the queue, a task in it has a token. -/
def TasksAwaited (s : State κ Task) : Prop :=
  s.worker.Rests → s.shared.tasks ≠ [] → Awaited s

omit [DecidableEq κ] in
theorem tasksAwaited_create : TasksAwaited (create κ Task) := fun _ hne => absurd rfl hne

/-- After a call the thread is in front of its first wait only if it was there before. -/
theorem rests_afterAdd {c : Caller Task} {pc : Option (AddPc Task)} (h : (afterAdd c pc).Rests) :
    c = .run := by
  cases c with
  | run => rfl
  | oneLoop => cases pc <;> exact h.elim
  | handle task => cases pc <;> exact h.elim

omit [DecidableEq κ] in
/-- A step of the thread keeps its tokens, but for the one that it takes in order to look
into the queue. -/
theorem TasksAwaited.worker {s : State κ Task} (hs : TasksAwaited s) {sh pc}
    (h : WorkerStep dev s.shared s.worker sh pc) :
    TasksAwaited { s with shared := sh, worker := pc } := by
  intro hrests hne
  have hkeep : s.worker.Rests → s.shared.tasks ≠ [] → ¬ s.worker.Owes →
      0 < s.shared.sem ∨ ∃ k pc, s.client k = some pc ∧ pc.Owes := by
    intro hrests hne howes
    rcases hs hrests hne with hsem | hself | hclient
    · exact .inl hsem
    · exact absurd hself howes
    · exact .inr hclient
  have hback : (0 < s.shared.sem ∨ ∃ k pc, s.client k = some pc ∧ pc.Owes) → s.shared.sem ≤ sh.sem →
      Awaited { s with shared := sh, worker := pc } := by
    rintro (hsem | hclient) hle
    · exact .inl (hsem.trans_le hle)
    · exact .inr (.inr hclient)
  generalize hw : s.worker = w at h
  generalize hsh : s.shared = sh₀ at h
  rw [hw, hsh] at hkeep
  rw [hsh] at hback
  cases h with
  | reset h v z hptz => exact hback (hkeep trivial hne id) le_rfl
  | resetNone hptz => exact hback (hkeep trivial hne id) le_rfl
  | testRun hquit => exact hback (hkeep trivial hne id) le_rfl
  | unlockNull => exact hback (hkeep trivial hne id) le_rfl
  | popFrontEmpty hempty => exact absurd hempty hne
  | add hadd =>
      obtain rfl := rests_afterAdd hrests
      cases hadd with
      | lock hfree => exact hback (hkeep trivial hne id) le_rfl
      | pushBack => exact .inr (.inl trivial)
      | unlock => exact .inr (.inl trivial)
      | post => exact .inl (Nat.succ_pos _)
  | _ => exact hrests.elim

/-- A step of a call keeps every token, and what it appends it is going to post for. -/
theorem TasksAwaited.client {s : State κ Task} (hs : TasksAwaited s) {k : κ} {pc sh pc'}
    (hpc : s.client k = some pc) (h : AddStep (some k) s.shared pc sh pc') :
    TasksAwaited { s with shared := sh, client := Function.update s.client k pc' } := by
  intro hrests hne
  have hself : ∀ pc'', pc' = some pc'' → pc''.Owes →
      Awaited { s with shared := sh, client := Function.update s.client k pc' } := by
    intro pc'' heq howes
    exact .inr (.inr ⟨k, pc'', by rw [heq]; exact Function.update_self _ _ _, howes⟩)
  cases h with
  | lock hfree =>
      rcases hs hrests hne with hsem | hself | ⟨k', pc, hk', howes⟩
      · exact .inl hsem
      · exact .inr (.inl hself)
      · have hne : k' ≠ k := by
          rintro rfl
          cases hpc.symm.trans hk'
          exact howes
        exact .inr (.inr ⟨k', pc, by rw [← hk']; exact Function.update_of_ne hne _ _, howes⟩)
  | pushBack => exact hself _ rfl trivial
  | unlock => exact hself _ rfl trivial
  | post => exact .inl (Nat.succ_pos _)

theorem tasksAwaited_step {s t : State κ Task} (hs : TasksAwaited s) (h : Step dev s t) :
    TasksAwaited t := by
  cases h with
  | worker hstep => exact hs.worker hstep
  | client k hpc hstep => exact hs.client hpc hstep
  | call k hpc hlive hcall =>
      intro hrests hne
      rcases hs hrests hne with hsem | hself | ⟨k', pc, hk', howes⟩
      · exact .inl hsem
      · exact .inr (.inl hself)
      · have hne : k' ≠ k := by
          rintro rfl
          cases hpc.symm.trans hk'
        exact .inr (.inr ⟨k', pc, by rw [← hk']; exact Function.update_of_ne hne _ _, howes⟩)
  | destroy hstep =>
      cases hstep with
      | setQuit hidle => exact hs
      | join hjoin hexited => exact hs

/-- A blocked thread has nothing to do but what a call is about to post for. -/
theorem tasks_eq_nil_of_blocked {s : State κ Task} (h : Reachable dev s) (hblocked : Blocked s)
    (hcalls : ∀ k pc, s.client k = some pc → ¬ pc.Owes) : s.shared.tasks = [] := by
  have hs : TasksAwaited s := invariant (fun _ _ => tasksAwaited_step) tasksAwaited_create h
  obtain ⟨hwait, hsem⟩ := hblocked
  by_contra hne
  rcases hs (by rw [hwait]; trivial) hne with hpos | hself | ⟨k, pc, hk, howes⟩
  · omega
  · rw [hwait] at hself
    exact hself
  · exact hcalls k pc hk howes

/-- Whenever the thread is blocked and no call is on its way to its post, exactly the
tasks that have been appended have been executed, in this order. -/
theorem all_started_of_blocked {run : List (State κ Task)}
    (hrun : (create κ Task :: run).IsChain (Step dev))
    (hblocked : Blocked (run.getLastD (create κ Task)))
    (hcalls : ∀ k pc, (run.getLastD (create κ Task)).client k = some pc → ¬ pc.Owes) :
    along started (create κ Task) run = along pushed (create κ Task) run := by
  have htasks := tasks_eq_nil_of_blocked (reflTransGen_of_isChain hrun) hblocked hcalls
  have hall := started_append_pending hrun
  have hheld : pending (run.getLastD (create κ Task)) = [] := by
    rw [pending, htasks, hblocked.1]
    rfl
  rwa [hheld, List.append_nil] at hall

/-- A thread without callers. -/
def withoutCallers (sem : ℕ) (cs : Option (Option Empty)) (tasks : List Task)
    (worker : WorkerPc Task) : State Empty Task where
  shared := ⟨false, sem, cs, tasks⟩
  worker := worker
  client := fun _ => none
  destroy := .idle

/-- The thread starts with this task and waits. -/
def resetRun (t : Task) : List (State Empty Task) :=
  [withoutCallers 0 none [] (.add (.lock t) .run),
    withoutCallers 0 (some none) [] (.add (.pushBack t) .run),
    withoutCallers 0 (some none) [t] (.add .unlock .run),
    withoutCallers 0 none [t] (.add .post .run),
    withoutCallers 1 none [t] .test, withoutCallers 1 none [t] .wait,
    withoutCallers 0 none [t] .oneLoop, withoutCallers 0 none [t] .nextTask,
    withoutCallers 0 (some none) [t] .popFront, withoutCallers 0 (some none) [] (.unlock (some t)),
    withoutCallers 0 none [] (.execTask t), withoutCallers 0 none [] .nextTask,
    withoutCallers 0 (some none) [] .popFront, withoutCallers 0 (some none) [] (.unlock none),
    withoutCallers 0 none [] .test, withoutCallers 0 none [] .wait]

theorem isChain_resetRun (hptz : dev.ptz = true) (h v z : ℤ) :
    (create Empty Task :: resetRun (dev.taskPtzReset h v z)).IsChain (Step dev) :=
  .cons_cons (.worker (.reset h v z hptz)) <| .cons_cons (.worker (.add (.lock rfl))) <|
    .cons_cons (.worker (.add .pushBack)) <| .cons_cons (.worker (.add .unlock)) <|
    .cons_cons (.worker (.add .post)) <| .cons_cons (.worker (.testRun rfl)) <|
    .cons_cons (.worker (.wait Nat.one_pos)) <| .cons_cons (.worker .oneLoopReturn) <|
    .cons_cons (.worker (.nextTask rfl)) <| .cons_cons (.worker (.popFront rfl)) <|
    .cons_cons (.worker .unlock) <| .cons_cons (.worker .execTaskReturn) <|
    .cons_cons (.worker (.nextTask rfl)) <| .cons_cons (.worker (.popFrontEmpty rfl)) <|
    .cons_cons (.worker .unlockNull) <| .cons_cons (.worker (.testRun rfl)) <| .singleton _

/-- In every run tasks are executed in the order in which they are appended, each at most
once.  Whenever the thread is blocked and no call is on its way to its post, all of them
have been. -/
theorem executed_in_order {run : List (State κ Task)}
    (hrun : (create κ Task :: run).IsChain (Step dev)) :
    along started (create κ Task) run <+: along pushed (create κ Task) run ∧
      (Blocked (run.getLastD (create κ Task)) →
        (∀ k pc, (run.getLastD (create κ Task)).client k = some pc → ¬ pc.Owes) →
        along started (create κ Task) run = along pushed (create κ Task) run) :=
  ⟨⟨_, started_append_pending hrun⟩, all_started_of_blocked hrun⟩

theorem executed_in_order_reset :
    along started (create Empty Unit) (resetRun ()) <+:
        along pushed (create Empty Unit) (resetRun ()) ∧
      (Blocked ((resetRun ()).getLastD (create Empty Unit)) →
        (∀ k pc, ((resetRun ()).getLastD (create Empty Unit)).client k = some pc → ¬ pc.Owes) →
        along started (create Empty Unit) (resetRun ()) =
          along pushed (create Empty Unit) (resetRun ())) :=
  executed_in_order (@isChain_resetRun Unit ⟨true, fun _ _ _ => ()⟩ rfl 0 0 5000)

end LibSimple.Ptz
