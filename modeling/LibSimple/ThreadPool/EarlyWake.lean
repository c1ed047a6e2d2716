import LibSimple.ThreadPool.Invariant

/-!
# Early returns of the semaphore wait

`simple_sem_wait` ignores the result of `sem_wait`, which an interrupt may end
without a token.  A worker that is woken so may find the list empty while its
variable `task` still names what it has executed before.
-/

namespace LibSimple.ThreadPool

open Transition Relation

variable {n : ℕ} {κ : Type}

/-- A pool, and for each worker whether it has dequeued a task since its loop
last tested `quit`. -/
structure Watched (n : ℕ) (κ : Type) where
  pool : Pool n κ
  fresh : Fin n → Bool

def watchedCreate (n : ℕ) (κ : Type) : Watched n κ where
  pool := simpleThreadPoolCreate n κ
  fresh := fun _ => false

/-- The record for a worker after its next step. -/
def freshAfter (sh : Shared n κ) (l : Worker) (fresh : Bool) : Bool :=
  match l.pc with
  | .test => false
  | .dequeue => if sh.tasks = [] then fresh else true
  | _ => fresh

/-- The steps of a pool, of a worker or of another thread, when a wait may also
return without a token. -/
inductive EarlyStep [DecidableEq κ] : Option (Fin n) → Watched n κ → Watched n κ → Prop
  | worker {s} (w : Fin n) {sh l}
      (h : WorkerStep (Sum.inl w) s.pool.shared (s.pool.worker w) sh l) :
      EarlyStep (some w) s
        { pool := { s.pool with shared := sh, worker := Function.update s.pool.worker w l }
          fresh := Function.update s.fresh w
            (freshAfter s.pool.shared (s.pool.worker w) (s.fresh w)) }
  | early {s} (w : Fin n) {t} (h : s.pool.worker w = ⟨.wait, t⟩) :
      EarlyStep (some w) s
        { s with pool :=
          { s.pool with worker := Function.update s.pool.worker w ⟨.recheck, t⟩ } }
  | client {s} (k : κ) {pc sh pc'} (hpc : s.pool.client k = some pc)
      (h : AddStep (Sum.inr k) s.pool.shared pc sh pc') :
      EarlyStep none s
        { s with pool :=
          { s.pool with shared := sh, client := Function.update s.pool.client k pc' } }
  | addTask {s} (k : κ) (hpc : s.pool.client k = none) (h : ¬ s.pool.destroy.Freeing) :
      EarlyStep none s
        { s with pool :=
          { s.pool with client := Function.update s.pool.client k (some .lock) } }
  | destroy {s p} (h : DestroyStep s.pool p) : EarlyStep none s { s with pool := p }

/-- A worker that finds the list empty has no task left over from before. -/
def NothingLeftOver (who : Option (Fin n)) (s : Watched n κ) : Prop :=
  ∀ w ∈ who, (s.pool.worker w).pc = .dequeue → s.pool.shared.tasks = [] →
    (s.pool.worker w).task = none

/-- A step that meets this condition. -/
def CarefulStep [DecidableEq κ] (s t : Watched n κ) : Prop :=
  ∃ who, EarlyStep who s t ∧ NothingLeftOver who s

/-- A worker is about to call only what it has dequeued in this round of its
loop, and no task has been executed twice. -/
structure CallsOnce (s : Watched n κ) : Prop where
  fresh : ∀ w id, s.pool.worker w = ⟨.call, some id⟩ → s.fresh w = true
  once : ∀ id, s.pool.shared.executed.count id ≤ 1

/-! ## Where a task is -/

section Steps

variable {a : Thread n κ} {sh sh' : Shared n κ} {l l' : Worker}

/-- How often a task has been dequeued or destroyed or is pending. -/
def Shared.places (sh : Shared n κ) (id : ℕ) : ℕ :=
  sh.dequeued.count id + sh.destroyed.count id + sh.tasks.count id

/-- Each task that has been added is in one place. -/
def Placed (sh : Shared n κ) : Prop :=
  ∀ id, sh.places id = if id < sh.added then 1 else 0

theorem AddStep.placed {pc : AddPc} {pc' : Option AddPc} (h : AddStep a sh pc sh' pc')
    (hplaced : Placed sh) : Placed sh' := by
  intro id
  have hid := hplaced id
  cases h with
  | push =>
      simp only [Shared.places, List.count_append, List.count_singleton, beq_iff_eq] at hid ⊢
      split_ifs at hid ⊢ <;> omega
  | _ => exact hid

theorem WorkerStep.placed (h : WorkerStep a sh l sh' l') (hplaced : Placed sh) :
    Placed sh' := by
  intro id
  have hid := hplaced id
  cases h with
  | @dequeue _ id' rest htasks =>
      simp only [Shared.places, htasks, List.count_append, List.count_cons,
        List.count_nil] at hid ⊢
      omega
  | add h => exact h.placed hplaced id
  | _ => exact hid

/-- A task that a worker is about to call is one of this round. -/
def FreshCall (l : Worker) (fresh : Bool) : Prop :=
  l.pc = .unlock ∨ l.pc = .call → l.task ≠ none → fresh = true

/-- On its way to the list a worker has dequeued nothing in this round. -/
def NotYetFresh (l : Worker) (fresh : Bool) : Prop :=
  l.pc = .wait ∨ l.pc = .recheck ∨ l.pc = .lock ∨ l.pc = .dequeue → fresh = false

theorem WorkerStep.freshCall (h : WorkerStep a sh l sh' l') {fresh : Bool}
    (hdequeue : l.pc = .dequeue → sh.tasks = [] → l.task = none) (hl : FreshCall l fresh) :
    FreshCall l' (freshAfter sh l fresh) := by
  cases h with
  | @dequeue _ id rest htasks =>
      intro _ _
      simp [freshAfter, htasks]
  | dequeueEmpty htasks =>
      intro _ htask
      exact absurd (hdequeue rfl htasks) htask
  | unlock => exact fun _ htask => hl (Or.inl rfl) htask
  | @add _ _ _ pc' h => cases pc' <;> simp [FreshCall, afterAdd]
  | _ => simp [FreshCall]

theorem WorkerStep.notYetFresh (h : WorkerStep a sh l sh' l') {fresh : Bool}
    (hl : NotYetFresh l fresh) : NotYetFresh l' (freshAfter sh l fresh) := by
  cases h with
  | testRun h => exact fun _ => rfl
  | wait h => exact fun _ => hl (Or.inl rfl)
  | recheckRun h => exact fun _ => hl (Or.inr (Or.inl rfl))
  | lock h => exact fun _ => hl (Or.inr (Or.inr (Or.inl rfl)))
  | @add _ _ _ pc' h => cases pc' <;> simp [NotYetFresh, afterAdd]
  | _ => simp [NotYetFresh]

theorem DestroyStep.placed {s t : Pool n κ} (h : DestroyStep s t) (hplaced : Placed s.shared) :
    Placed t.shared := by
  intro id
  have hid := hplaced id
  cases h with
  | @freeTask id' rest hd htasks =>
      simp only [Shared.places, htasks, List.count_append, List.count_cons,
        List.count_nil] at hid ⊢
      omega
  | _ => exact hid

/-- A step of `simple_thread_pool_destroy` moves no worker and executes nothing. -/
theorem DestroyStep.frame {s t : Pool n κ} (h : DestroyStep s t) :
    t.worker = s.worker ∧ t.shared.executed = s.shared.executed ∧
      t.shared.dequeued = s.shared.dequeued := by
  cases h <;> exact ⟨rfl, rfl, rfl⟩

end Steps

/-! ## Careful runs -/

structure CarefulInvariant (s : Watched n κ) : Prop where
  placed : Placed s.pool.shared
  executed : ∀ id, s.pool.shared.executed.count id + total (Worker.holds id) s.pool.worker =
    s.pool.shared.dequeued.count id
  fresh : ∀ w, FreshCall (s.pool.worker w) (s.fresh w)

theorem carefulInvariant_create : CarefulInvariant (watchedCreate n κ) where
  placed := fun id => rfl
  executed := fun id => by
    have hworkers : total (Worker.holds id) (watchedCreate n κ).pool.worker = 0 :=
      total_eq_zero fun _ => rfl
    rw [hworkers]
    rfl
  fresh := fun w => by simp [FreshCall, watchedCreate, simpleThreadPoolCreate]

/-- What holds for every worker holds after a step of one of them. -/
theorem forall_update {P : Worker → Bool → Prop} {worker : Fin n → Worker}
    {fresh : Fin n → Bool} (h : ∀ w, P (worker w) (fresh w)) {w : Fin n} {l : Worker} {b : Bool}
    (hw : P l b) (w' : Fin n) :
    P (Function.update worker w l w') (Function.update fresh w b w') := by
  by_cases heq : w' = w
  · subst heq
    rwa [Function.update_self, Function.update_self]
  · rw [Function.update_of_ne heq, Function.update_of_ne heq]
    exact h w'

section Runs

variable [DecidableEq κ] {s : Watched n κ}

theorem CarefulStep.of_worker {s t : Watched n κ} {w : Fin n} (h : EarlyStep (some w) s t)
    (hleft : (s.pool.worker w).pc = .dequeue → s.pool.shared.tasks = [] →
      (s.pool.worker w).task = none) : CarefulStep s t := by
  refine ⟨some w, h, fun w' hw' => ?_⟩
  obtain rfl : w = w' := Option.mem_some_iff.mp hw'
  exact hleft

theorem CarefulStep.of_other {s t : Watched n κ} (h : EarlyStep none s t) : CarefulStep s t :=
  ⟨none, h, nofun⟩

theorem carefulInvariant_step (s t : Watched n κ) (h : CarefulInvariant s)
    (hstep : CarefulStep s t) : CarefulInvariant t := by
  obtain ⟨who, hstep, hcareful⟩ := hstep
  cases hstep with
  | @worker _ w sh l hw =>
      have hdequeue := hcareful w rfl
      refine ⟨hw.placed h.placed, fun id => ?_, ?_⟩
      · have hlocal := hw.executed hdequeue id
        have hsum := total_update (Worker.holds id) s.pool.worker w l
        have hold := h.executed id
        show sh.executed.count id +
          total (Worker.holds id) (Function.update s.pool.worker w l) = sh.dequeued.count id
        omega
      · exact forall_update h.fresh (hw.freshCall hdequeue (h.fresh w))
  | @early _ w task hw =>
      refine ⟨h.placed, fun id => ?_, ?_⟩
      · have hsum := total_update (Worker.holds id) s.pool.worker w ⟨.recheck, task⟩
        have hold := h.executed id
        rw [hw] at hsum
        show s.pool.shared.executed.count id +
          total (Worker.holds id) (Function.update s.pool.worker w ⟨.recheck, task⟩) =
            s.pool.shared.dequeued.count id
        simp only [Worker.holds] at hsum hold ⊢
        omega
      · have hkept := forall_update (P := FreshCall) h.fresh (w := w) (l := ⟨.recheck, task⟩)
          (b := s.fresh w) (by simp [FreshCall])
        simpa only [Function.update_eq_self] using hkept
  | client k hpc hadd =>
      obtain ⟨hdequeued, hexecuted, -⟩ := hadd.order
      refine ⟨hadd.placed h.placed, fun id => ?_, h.fresh⟩
      show List.count id _ + _ = List.count id _
      rw [hdequeued, hexecuted]
      exact h.executed id
  | addTask k hpc hfree => exact ⟨h.placed, h.executed, h.fresh⟩
  | destroy hd =>
      obtain ⟨hworker, hexecuted, hdequeued⟩ := hd.frame
      refine ⟨hd.placed h.placed, fun id => ?_, fun w => ?_⟩
      · show List.count id _ + total _ _ = List.count id _
        rw [hworker, hexecuted, hdequeued]
        exact h.executed id
      · show FreshCall _ _
        rw [hworker]
        exact h.fresh w

/-- In every run in which a worker that finds the list empty has no task left
over, tasks are called in the round in which they are dequeued, and once. -/
theorem callsOnce_of_careful (h : ReflTransGen CarefulStep (watchedCreate n κ) s) :
    CallsOnce s := by
  have hinv := invariant carefulInvariant_step carefulInvariant_create h
  constructor
  · intro w id hw
    apply hinv.fresh w
    · exact Or.inr (by rw [hw])
    · simp [hw]
  · intro id
    have hplaced := hinv.placed id
    have hexecuted := hinv.executed id
    rw [Shared.places] at hplaced
    split_ifs at hplaced <;> omega

/-- A run with an early return before any task has been added, and a task
executed after it. -/
theorem callsOnce_of_careful_run :
    ∃ s : Watched 1 Unit, s.pool.shared.executed = [0] ∧ CallsOnce s := by
  have h : ReflTransGen CarefulStep (watchedCreate 1 Unit) (watchedCreate 1 Unit) := .refl
  have h := h.tail (.of_worker (.worker 0 (.testRun rfl)) nofun)
  have h := h.tail (.of_worker (.early 0 rfl) nofun)
  have h := h.tail (.of_worker (.worker 0 (.recheckRun rfl)) nofun)
  have h := h.tail (.of_worker (.worker 0 (.lock rfl)) nofun)
  have h := h.tail (.of_worker (.worker 0 (.dequeueEmpty rfl)) fun _ _ => rfl)
  have h := h.tail (.of_worker (.worker 0 .unlock) nofun)
  have h := h.tail (.of_worker (.worker 0 .callNull) nofun)
  have h := h.tail (.of_other (.addTask () rfl not_false))
  have h := h.tail (.of_other (.client () rfl (.lock rfl)))
  have h := h.tail (.of_other (.client () rfl .push))
  have h := h.tail (.of_other (.client () rfl .unlock))
  have h := h.tail (.of_other (.client () rfl .post))
  have h := h.tail (.of_worker (.worker 0 (.testRun rfl)) nofun)
  have h := h.tail (.of_worker (.worker 0 (.wait Nat.one_pos)) nofun)
  have h := h.tail (.of_worker (.worker 0 (.recheckRun rfl)) nofun)
  have h := h.tail (.of_worker (.worker 0 (.lock rfl)) nofun)
  have h := h.tail (.of_worker (.worker 0 (.dequeue rfl)) fun _ => nofun)
  have h := h.tail (.of_worker (.worker 0 .unlock) nofun)
  have h := h.tail (.of_worker (.worker 0 .call) nofun)
  exact ⟨_, rfl, callsOnce_of_careful h⟩

/-- Without early returns every run is careful: there is a token for each
task. -/
theorem careful_of_reachable [Fintype κ] {p : Pool n κ} (h : Reachable p) :
    ∃ fresh, ReflTransGen CarefulStep (watchedCreate n κ) ⟨p, fresh⟩ := by
  induction h with
  | refl => exact ⟨_, .refl⟩
  | @tail q r hq hstep ih =>
      obtain ⟨fresh, hrun⟩ := ih
      have hinv := invariant_reachable hq
      cases hstep with
      | worker w hw =>
          exact ⟨_, hrun.tail (.of_worker (.worker w hw) fun hpc hempty =>
            absurd hempty (hinv.tasks_ne_nil hpc))⟩
      | client k hpc hadd => exact ⟨fresh, hrun.tail (.of_other (.client k hpc hadd))⟩
      | addTask k hpc hfree => exact ⟨fresh, hrun.tail (.of_other (.addTask k hpc hfree))⟩
      | destroy hd => exact ⟨fresh, hrun.tail (.of_other (.destroy hd))⟩

/-! ## Careless runs -/

/-- A step of any kind. -/
def AnyStep (s t : Watched n κ) : Prop := ∃ who, EarlyStep who s t

theorem notYetFresh_step (s t : Watched n κ)
    (h : ∀ w, NotYetFresh (s.pool.worker w) (s.fresh w)) (hstep : AnyStep s t) (w : Fin n) :
    NotYetFresh (t.pool.worker w) (t.fresh w) := by
  obtain ⟨who, hstep⟩ := hstep
  cases hstep with
  | worker w' hw => exact forall_update h (hw.notYetFresh (h w')) w
  | @early _ w' task hw =>
      have hfresh : s.fresh w' = false := h w' (Or.inl (by rw [hw]))
      have hkept := forall_update (P := NotYetFresh) h (w := w') (l := ⟨.recheck, task⟩)
        (b := s.fresh w') (fun _ => hfresh) w
      simpa only [Function.update_eq_self] using hkept
  | client k hpc hadd => exact h w
  | addTask k hpc hfree => exact h w
  | destroy hd =>
      show NotYetFresh _ _
      rw [hd.frame.1]
      exact h w

theorem anyStep_worker {w : Fin n} {sh : Shared n κ} {l : Worker}
    (h : WorkerStep (Sum.inl w) s.pool.shared (s.pool.worker w) sh l) :
    ∃ t, AnyStep s t ∧ t.pool.worker w = l ∧
      t.fresh w = freshAfter s.pool.shared (s.pool.worker w) (s.fresh w) :=
  ⟨_, ⟨_, .worker w h⟩, Function.update_self .., Function.update_self ..⟩

/-- Where a worker finds the list empty with a task left over, two more steps
bring it to call that task, which is none of this round. -/
theorem stale_call (h : ReflTransGen AnyStep (watchedCreate n κ) s) {w : Fin n} {id : ℕ}
    (hw : s.pool.worker w = ⟨.dequeue, some id⟩) (hempty : s.pool.shared.tasks = []) :
    ∃ t, ReflTransGen AnyStep s t ∧ ¬ CallsOnce t := by
  have hfresh : s.fresh w = false := by
    have hstart : ∀ w, NotYetFresh ((watchedCreate n κ).pool.worker w)
        ((watchedCreate n κ).fresh w) := fun w _ => rfl
    exact invariant notYetFresh_step hstart h w (by simp [hw])
  have hdequeue : WorkerStep (Sum.inl w) s.pool.shared (s.pool.worker w) s.pool.shared
      ⟨.unlock, some id⟩ := by
    rw [hw]
    exact .dequeueEmpty hempty
  obtain ⟨s₁, hs₁, hw₁, hfresh₁⟩ := anyStep_worker hdequeue
  have hunlock : WorkerStep (Sum.inl w) s₁.pool.shared (s₁.pool.worker w)
      { s₁.pool.shared with lock := none } ⟨.call, some id⟩ := by
    rw [hw₁]
    exact .unlock
  obtain ⟨s₂, hs₂, hw₂, hfresh₂⟩ := anyStep_worker hunlock
  have hstale : s₂.fresh w = false := by
    rw [hfresh₂, freshAfter, hw₁]
    rw [hfresh₁, freshAfter, hw]
    simp only [hempty, if_true, hfresh]
  refine ⟨s₂, (ReflTransGen.single hs₁).tail hs₂, fun hcalls => ?_⟩
  have := hcalls.fresh w id hw₂
  rw [hstale] at this
  cases this

/-- An early return after the only task has been executed makes the worker call
it a second time. -/
theorem not_callsOnce_early :
    ∃ s : Watched 1 Unit, ReflTransGen AnyStep (watchedCreate 1 Unit) s ∧
      s.pool.shared.added = 1 ∧ s.pool.shared.executed = [0, 0] ∧ ¬ CallsOnce s := by
  have h : ReflTransGen AnyStep (watchedCreate 1 Unit) (watchedCreate 1 Unit) := .refl
  have h := h.tail ⟨_, .addTask () rfl not_false⟩
  have h := h.tail ⟨_, .client () rfl (.lock rfl)⟩
  have h := h.tail ⟨_, .client () rfl .push⟩
  have h := h.tail ⟨_, .client () rfl .unlock⟩
  have h := h.tail ⟨_, .client () rfl .post⟩
  have h := h.tail ⟨_, .worker 0 (.testRun rfl)⟩
  have h := h.tail ⟨_, .worker 0 (.wait Nat.one_pos)⟩
  have h := h.tail ⟨_, .worker 0 (.recheckRun rfl)⟩
  have h := h.tail ⟨_, .worker 0 (.lock rfl)⟩
  have h := h.tail ⟨_, .worker 0 (.dequeue rfl)⟩
  have h := h.tail ⟨_, .worker 0 .unlock⟩
  have h := h.tail ⟨_, .worker 0 .call⟩
  have h := h.tail ⟨_, .worker 0 .handleReturn⟩
  have h := h.tail ⟨_, .worker 0 (.testRun rfl)⟩
  have h := h.tail ⟨_, .early 0 rfl⟩
  have h := h.tail ⟨_, .worker 0 (.recheckRun rfl)⟩
  have h := h.tail ⟨_, .worker 0 (.lock rfl)⟩
  have h := h.tail ⟨_, .worker 0 (.dequeueEmpty rfl)⟩
  have h := h.tail ⟨_, .worker 0 .unlock⟩
  have h := h.tail ⟨_, .worker 0 .call⟩
  refine ⟨_, h, rfl, rfl, fun hcalls => ?_⟩
  exact absurd (hcalls.once 0) (by decide)

end Runs

end LibSimple.ThreadPool
