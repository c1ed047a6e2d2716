import LibSimple.ThreadPool.Invariant
import Mathlib.Data.List.Nodup

/-!
# What happens to tasks and workers

The consequences of the invariant for the users of the pool: every task is
executed or destroyed exactly once, and destruction neither hangs on a waiting
worker nor frees what a worker still uses.
-/

namespace LibSimple.ThreadPool

open Transition

variable {n : ℕ} {κ : Type} [Fintype κ] {s : Pool n κ}

/-! ## Tasks -/

/-- Tasks are dequeued in the order in which they were appended, one for each
dequeue, none is executed twice or both executed and destroyed, and in the end
each has been one of the two. -/
structure TasksConserved (s : Pool n κ) : Prop where
  available : ∀ w, (s.worker w).pc = .dequeue → s.shared.tasks ≠ []
  fifo : s.shared.dequeued <+: List.range s.shared.added
  once : ∀ id, s.shared.executed.count id + s.shared.destroyed.count id ≤ 1
  settled : s.destroy = .done → ∀ id < s.shared.added,
    s.shared.executed.count id + s.shared.destroyed.count id = 1

/-- Each task is in one place: dequeued, destroyed or pending. -/
theorem Invariant.count_eq (h : Invariant s) (id : ℕ) :
    s.shared.dequeued.count id + s.shared.destroyed.count id + s.shared.tasks.count id =
      if id < s.shared.added then 1 else 0 := by
  rw [← List.count_append, ← List.count_append, h.order,
    List.Nodup.count List.nodup_range]
  simp only [List.mem_range]

theorem Invariant.executed_le (h : Invariant s) (id : ℕ) :
    s.shared.executed.count id ≤ s.shared.dequeued.count id := by
  rw [← h.executed id]
  exact Nat.le_add_right _ _

theorem tasksConserved [DecidableEq κ] (h : Reachable s) : TasksConserved s := by
  have hinv := invariant_reachable h
  refine ⟨fun w hw => hinv.tasks_ne_nil hw, ⟨_, by rw [← List.append_assoc]; exact hinv.order⟩,
    fun id => ?_, fun hdone id hid => ?_⟩
  · have hcount := hinv.count_eq id
    have hle := hinv.executed_le id
    split_ifs at hcount <;> omega
  · have hcount := hinv.count_eq id
    have hexecuted := hinv.executed id
    have hexited : ∀ w, (s.worker w).pc = .exited := fun w => hinv.joined w (by rw [hdone]; trivial)
    have hholds : total (Worker.holds id) s.worker = 0 :=
      total_eq_zero fun w => by rw [Worker.holds, hexited w]
    have htasks := hinv.freed (by rw [hdone]; trivial)
    rw [htasks, List.count_nil, if_pos hid] at hcount
    omega

/-- A run in which one thread adds a task, the only worker executes it and the
pool is destroyed. -/
theorem tasksConserved_run :
    ∃ s : Pool 1 Unit, s.destroy = .done ∧ s.shared.executed = [0] ∧ TasksConserved s := by
  have h : Reachable (simpleThreadPoolCreate 1 Unit) := .refl
  have h := h.tail (.addTask () rfl not_false)
  have h := h.tail (.client () rfl (.lock rfl))
  have h := h.tail (.client () rfl .push)
  have h := h.tail (.client () rfl .unlock)
  have h := h.tail (.client () rfl .post)
  have h := h.tail (.worker 0 (.testRun rfl))
  have h := h.tail (.worker 0 (.wait Nat.one_pos))
  have h := h.tail (.worker 0 (.recheckRun rfl))
  have h := h.tail (.worker 0 (.lock rfl))
  have h := h.tail (.worker 0 (.dequeue rfl))
  have h := h.tail (.worker 0 .unlock)
  have h := h.tail (.worker 0 .call)
  have h := h.tail (.worker 0 .handleReturn)
  have h := h.tail (.destroy (.begin rfl))
  have h := h.tail (.destroy (.setQuit rfl))
  have h := h.tail (.worker 0 (.testQuit rfl))
  have h := h.tail (.destroy (.post rfl Nat.one_pos))
  have h := h.tail (.destroy (.posted rfl))
  have h := h.tail (.destroy (.join rfl rfl))
  have h := h.tail (.destroy (.joined rfl fun _ => rfl))
  have h := h.tail (.destroy (.freedTasks rfl rfl))
  have h := h.tail (.destroy (.destroyLock rfl))
  have h := h.tail (.destroy (.destroySem rfl))
  have h := h.tail (.destroy (.freePool rfl))
  exact ⟨_, rfl, rfl, tasksConserved h⟩

/-! ## Shutdown -/

/-- While `simple_thread_pool_destroy` waits for a worker, that worker is not
blocked on an empty semaphore, and once it has begun to destroy the lock no
worker takes a step any more. -/
structure ShutdownSafe (s : Pool n κ) : Prop where
  awake : ∀ w ws, s.destroy = .join (w :: ws) →
    ¬ ((s.worker w).pc = .wait ∧ s.shared.sem = 0)
  quiet : s.destroy.Freed → ∀ w sh l, ¬ WorkerStep (Sum.inl w) s.shared (s.worker w) sh l

theorem shutdownSafe [DecidableEq κ] (h : Reachable s) : ShutdownSafe s := by
  have hinv := invariant_reachable h
  constructor
  · rintro w ws hd ⟨hwait, hsem⟩
    have hle := hinv.waiting (hinv.quit.mpr (by rw [hd]; trivial))
    have hone : (s.worker w).waiting = 1 := by rw [Worker.waiting, hwait]
    have hweight := weight_le_total Worker.waiting s.worker w
    rw [hd, hsem] at hle
    simp only [DestroyPc.postsLeft] at hle
    omega
  · intro hfreed w sh l hstep
    exact hstep.not_exited (hinv.joined w (hfreed.freeing.joined w))

/-- The only worker waits while it is being joined. -/
theorem shutdownSafe_run :
    ∃ s : Pool 1 Unit, s.destroy = .join [0] ∧ (s.worker 0).pc = .wait ∧ ShutdownSafe s := by
  have h : Reachable (simpleThreadPoolCreate 1 Unit) := .refl
  have h := h.tail (.worker 0 (.testRun rfl))
  have h := h.tail (.destroy (.begin rfl))
  have h := h.tail (.destroy (.setQuit rfl))
  have h := h.tail (.destroy (.post rfl Nat.one_pos))
  have h := h.tail (.destroy (.posted rfl))
  exact ⟨_, rfl, rfl, shutdownSafe h⟩

end LibSimple.ThreadPool
