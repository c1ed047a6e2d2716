import LibSimple.ThreadPool.Model

/-!
# The token invariant of the thread pool

While the pool is not being destroyed there is one token for each pending task:
in the semaphore, in the hands of a worker on its way to the list, or still to
be posted by the thread that has appended the task.  Destruction adds a token
for each worker, so that no worker is left waiting.
-/

namespace LibSimple.ThreadPool

open Transition

variable {n : ℕ} {κ : Type}

/-! ## Weights of program points -/

/-- A task has been appended and its token not posted yet. -/
def AddPc.owes : AddPc → ℕ
  | .unlock | .post => 1
  | .lock | .push => 0

def clientOwes : Option AddPc → ℕ
  | some pc => pc.owes
  | none => 0

/-- The tokens that a worker accounts for: one that it has taken for a task
still in the list, or one that its handler has to post. -/
def Worker.tokens (l : Worker) : ℕ :=
  match l.pc with
  | .recheck | .lock | .dequeue => 1
  | .add pc => pc.owes
  | _ => 0

/-- The worker is going to take a task out of the list. -/
def Worker.committed (l : Worker) : ℕ :=
  match l.pc with
  | .lock | .dequeue => 1
  | _ => 0

def Worker.waiting (l : Worker) : ℕ :=
  match l.pc with
  | .wait => 1
  | _ => 0

/-- The worker has taken the task out of the list and not called it yet. -/
def Worker.holds (id : ℕ) (l : Worker) : ℕ :=
  match l.pc with
  | .unlock | .call => if l.task = some id then 1 else 0
  | _ => 0

theorem committed_le_tokens (l : Worker) : l.committed ≤ l.tokens := by
  unfold Worker.committed Worker.tokens
  cases l.pc <;> simp

theorem waiting_le_one (l : Worker) : l.waiting ≤ 1 := by
  unfold Worker.waiting
  cases l.pc <;> simp

/-! ## What one step does to the shared data -/

/-- What every step of the threads leaves alone: `quit` is set and tasks are
destroyed by `simple_thread_pool_destroy` only. -/
structure SameDestroy (sh sh' : Shared n κ) : Prop where
  quit : sh'.quit = sh.quit
  destroyed : sh'.destroyed = sh.destroyed

section Steps

variable {a : Thread n κ} {sh sh' : Shared n κ} {pc : AddPc} {pc' : Option AddPc}
  {l l' : Worker}

theorem AddStep.sameDestroy (h : AddStep a sh pc sh' pc') : SameDestroy sh sh' := by
  cases h <;> exact ⟨rfl, rfl⟩

theorem AddStep.balance (h : AddStep a sh pc sh' pc') :
    sh'.tasks.length + sh.sem + pc.owes = sh.tasks.length + sh'.sem + clientOwes pc' := by
  cases h with
  | lock h => simp [AddPc.owes, clientOwes]
  | push => simp [AddPc.owes, clientOwes]; omega
  | unlock => simp [AddPc.owes, clientOwes]
  | post => simp [AddPc.owes, clientOwes]; omega

theorem AddStep.sem_le (h : AddStep a sh pc sh' pc') : sh.sem ≤ sh'.sem := by
  cases h <;> simp

theorem AddStep.length_le (h : AddStep a sh pc sh' pc') :
    sh.tasks.length ≤ sh'.tasks.length := by
  cases h <;> simp

/-- Appending a task keeps the list of all tasks in the order of appending. -/
theorem AddStep.order (h : AddStep a sh pc sh' pc') :
    sh'.dequeued = sh.dequeued ∧ sh'.executed = sh.executed ∧
      ∀ pre, pre ++ sh.tasks = List.range sh.added →
        pre ++ sh'.tasks = List.range sh'.added := by
  cases h with
  | lock h => exact ⟨rfl, rfl, fun _ h => h⟩
  | push =>
      refine ⟨rfl, rfl, fun pre hpre => ?_⟩
      rw [← List.append_assoc, hpre, List.range_succ]
  | unlock => exact ⟨rfl, rfl, fun _ h => h⟩
  | post => exact ⟨rfl, rfl, fun _ h => h⟩

theorem WorkerStep.sameDestroy (h : WorkerStep a sh l sh' l') : SameDestroy sh sh' := by
  cases h with
  | add h => exact h.sameDestroy
  | _ => exact ⟨rfl, rfl⟩

theorem WorkerStep.not_exited (h : WorkerStep a sh l sh' l') : l.pc ≠ .exited := by
  cases h <;> simp

theorem tokens_afterAdd (pc' : Option AddPc) (t : Option ℕ) :
    Worker.tokens ⟨afterAdd pc', t⟩ = clientOwes pc' := by
  cases pc' <;> rfl

/-- As long as `quit` is not set a step keeps the balance of tokens and tasks,
when no worker dequeues from an empty list. -/
theorem WorkerStep.balance (h : WorkerStep a sh l sh' l') (hquit : sh.quit = false)
    (hdequeue : l.pc = .dequeue → sh.tasks ≠ []) :
    sh'.tasks.length + sh.sem + l.tokens = sh.tasks.length + sh'.sem + l'.tokens := by
  cases h with
  | testQuit h => simp [hquit] at h
  | recheckQuit h => simp [hquit] at h
  | wait h =>
      simp only [Worker.tokens]
      omega
  | dequeue h =>
      simp only [Worker.tokens, h, List.length_cons]
      omega
  | dequeueEmpty h => exact absurd h (hdequeue rfl)
  | add h =>
      rw [tokens_afterAdd]
      exact h.balance
  | _ => rfl

/-- Once `quit` is set no worker becomes committed to a task. -/
theorem WorkerStep.committed (h : WorkerStep a sh l sh' l') (hquit : sh.quit = true) :
    l'.committed + sh.tasks.length ≤ l.committed + sh'.tasks.length := by
  cases h with
  | recheckRun h => simp [hquit] at h
  | dequeue h =>
      simp only [Worker.committed, h, List.length_cons]
      omega
  | @add _ _ _ pc' h =>
      have hlength := h.length_le
      cases pc' <;> simpa [Worker.committed, afterAdd] using hlength
  | _ => simp [Worker.committed]

/-- Once `quit` is set no worker starts to wait. -/
theorem WorkerStep.waiting (h : WorkerStep a sh l sh' l') (hquit : sh.quit = true) :
    l'.waiting + sh.sem ≤ l.waiting + sh'.sem := by
  cases h with
  | testRun h => simp [hquit] at h
  | wait h =>
      simp only [Worker.waiting]
      omega
  | @add _ _ _ pc' h =>
      have hsem := h.sem_le
      cases pc' <;> simpa [Worker.waiting, afterAdd] using hsem
  | _ => simp [Worker.waiting]

/-- Tasks leave the list at its head. -/
theorem WorkerStep.order (h : WorkerStep a sh l sh' l')
    (hrange : sh.dequeued ++ sh.tasks = List.range sh.added) :
    sh'.dequeued ++ sh'.tasks = List.range sh'.added := by
  cases h with
  | dequeue h =>
      rw [h] at hrange
      simpa using hrange
  | add h =>
      obtain ⟨hdequeued, -, htasks⟩ := h.order
      rw [hdequeued]
      exact htasks _ hrange
  | _ => exact hrange

/-- A task that has been dequeued is held by its worker until it is called, when
a worker that finds the list empty has no task left over. -/
theorem WorkerStep.executed (h : WorkerStep a sh l sh' l')
    (hdequeue : l.pc = .dequeue → sh.tasks = [] → l.task = none) (id : ℕ) :
    sh'.executed.count id + l'.holds id + sh.dequeued.count id =
      sh.executed.count id + l.holds id + sh'.dequeued.count id := by
  cases h with
  | @dequeue _ id' _ h =>
      simp only [Worker.holds, List.count_append, List.count_singleton, beq_iff_eq,
        Option.some.injEq]
      omega
  | @dequeueEmpty t h =>
      obtain rfl : t = none := hdequeue rfl h
      simp [Worker.holds]
  | @call id' =>
      simp only [Worker.holds, List.count_append, List.count_singleton, beq_iff_eq,
        Option.some.injEq]
      omega
  | @add _ _ _ pc' h =>
      obtain ⟨hdequeued, hexecuted, -⟩ := h.order
      rw [hdequeued, hexecuted]
      cases pc' <;> rfl
  | _ => simp [Worker.holds]

end Steps

/-! ## The invariant -/

/-- `quit` has been set. -/
def DestroyPc.AfterQuit : DestroyPc n → Prop
  | .idle | .setQuit => False
  | _ => True

/-- The tokens that `simple_thread_pool_destroy` has still to post. -/
def DestroyPc.postsLeft : DestroyPc n → ℕ
  | .post i => n - i
  | _ => 0

/-- The worker has been joined. -/
def DestroyPc.Joined (w : Fin n) : DestroyPc n → Prop
  | .join ws => w ∉ ws
  | d => d.Freeing

/-- All pending tasks have been freed. -/
def DestroyPc.Freed : DestroyPc n → Prop
  | .destroyLock | .destroySem | .freePool | .done => True
  | _ => False

theorem DestroyPc.Freeing.joined {d : DestroyPc n} (h : d.Freeing) (w : Fin n) : d.Joined w := by
  cases d with
  | join ws => exact h.elim
  | _ => exact h

theorem DestroyPc.Freed.freeing {d : DestroyPc n} (h : d.Freed) : d.Freeing := by
  cases d with
  | freeTasks => exact h.elim
  | _ => exact h

structure Invariant [Fintype κ] (s : Pool n κ) : Prop where
  quit : s.shared.quit = true ↔ s.destroy.AfterQuit
  balance : s.shared.quit = false →
    s.shared.tasks.length =
      s.shared.sem + total Worker.tokens s.worker + total clientOwes s.client
  committed : s.shared.quit = true → total Worker.committed s.worker ≤ s.shared.tasks.length
  waiting : s.shared.quit = true →
    total Worker.waiting s.worker ≤ s.shared.sem + s.destroy.postsLeft
  joined : ∀ w, s.destroy.Joined w → (s.worker w).pc = .exited
  clients : s.destroy.Freeing → ∀ k, s.client k = none
  order : s.shared.dequeued ++ s.shared.destroyed ++ s.shared.tasks =
    List.range s.shared.added
  destroyed : ¬ s.destroy.Freeing → s.shared.destroyed = []
  executed : ∀ id, s.shared.executed.count id + total (Worker.holds id) s.worker =
    s.shared.dequeued.count id
  freed : s.destroy.Freed → s.shared.tasks = []

theorem invariant_create [Fintype κ] : Invariant (simpleThreadPoolCreate n κ) where
  quit := by simp [simpleThreadPoolCreate, DestroyPc.AfterQuit]
  balance := fun _ => by
    have hworkers : total Worker.tokens (simpleThreadPoolCreate n κ).worker = 0 :=
      total_eq_zero fun _ => rfl
    have hclients : total clientOwes (simpleThreadPoolCreate n κ).client = 0 :=
      total_eq_zero fun _ => rfl
    rw [hworkers, hclients]
    rfl
  committed := by simp [simpleThreadPoolCreate]
  waiting := by simp [simpleThreadPoolCreate]
  joined := fun _ h => absurd h (by simp [simpleThreadPoolCreate, DestroyPc.Joined,
    DestroyPc.Freeing])
  clients := fun _ _ => rfl
  order := rfl
  destroyed := fun _ => rfl
  executed := fun id => by
    have hworkers : total (Worker.holds id) (simpleThreadPoolCreate n κ).worker = 0 :=
      total_eq_zero fun _ => rfl
    rw [hworkers]
    rfl
  freed := fun _ => rfl

section Kept

variable [Fintype κ] {s : Pool n κ}

/-- At most as many workers are committed as there are tasks in the list. -/
theorem Invariant.committed_le (h : Invariant s) :
    total Worker.committed s.worker ≤ s.shared.tasks.length := by
  cases hquit : s.shared.quit with
  | true => exact h.committed hquit
  | false =>
      have hbalance := h.balance hquit
      have hle := total_le_total committed_le_tokens s.worker
      omega

/-- A worker that has come to the dequeue finds a task. -/
theorem Invariant.tasks_ne_nil (h : Invariant s) {w : Fin n}
    (hw : (s.worker w).pc = .dequeue) : s.shared.tasks ≠ [] := by
  have hone : (s.worker w).committed = 1 := by
    rw [Worker.committed, hw]
  have hle := weight_le_total Worker.committed s.worker w
  have hcommitted := h.committed_le
  rw [← List.length_pos_iff]
  omega

theorem invariant_worker (h : Invariant s) {w : Fin n} {sh : Shared n κ} {l : Worker}
    (hstep : WorkerStep (Sum.inl w) s.shared (s.worker w) sh l) :
    Invariant { s with shared := sh, worker := Function.update s.worker w l } := by
  have hsame := hstep.sameDestroy
  have hdequeue := fun hpc => h.tasks_ne_nil (w := w) hpc
  have hactive := hstep.not_exited
  have hfreeing : ¬ s.destroy.Freeing := fun hfree =>
    hactive (h.joined w (hfree.joined w))
  have hdestroyed := h.destroyed hfreeing
  constructor
  case quit =>
      show sh.quit = true ↔ s.destroy.AfterQuit
      rw [hsame.quit]
      exact h.quit
  case balance =>
      intro hquit
      have hquit' : s.shared.quit = false := hsame.quit ▸ hquit
      have hlocal := hstep.balance hquit' hdequeue
      have hsum := total_update Worker.tokens s.worker w l
      have hold := h.balance hquit'
      show sh.tasks.length = sh.sem + total Worker.tokens (Function.update s.worker w l) +
        total clientOwes s.client
      omega
  case committed =>
      intro hquit
      have hquit' : s.shared.quit = true := hsame.quit ▸ hquit
      have hlocal := hstep.committed hquit'
      have hsum := total_update Worker.committed s.worker w l
      have hold := h.committed hquit'
      show total Worker.committed (Function.update s.worker w l) ≤ sh.tasks.length
      omega
  case waiting =>
      intro hquit
      have hquit' : s.shared.quit = true := hsame.quit ▸ hquit
      have hlocal := hstep.waiting hquit'
      have hsum := total_update Worker.waiting s.worker w l
      have hold := h.waiting hquit'
      show total Worker.waiting (Function.update s.worker w l) ≤ sh.sem + s.destroy.postsLeft
      omega
  case joined =>
      intro w' hw'
      have hexited := h.joined w' hw'
      by_cases hww : w' = w
      · subst hww
        exact absurd hexited hactive
      · show (Function.update s.worker w l w').pc = .exited
        rw [Function.update_of_ne hww]
        exact hexited
  case clients => exact h.clients
  case order =>
      have hold := h.order
      rw [hdestroyed, List.append_nil] at hold
      show sh.dequeued ++ sh.destroyed ++ sh.tasks = List.range sh.added
      rw [hsame.destroyed, hdestroyed, List.append_nil]
      exact hstep.order hold
  case destroyed =>
      intro _
      show sh.destroyed = []
      rw [hsame.destroyed, hdestroyed]
  case executed =>
      intro id
      have hlocal := hstep.executed (fun hpc hempty => absurd hempty (hdequeue hpc)) id
      have hsum := total_update (Worker.holds id) s.worker w l
      have hold := h.executed id
      show sh.executed.count id + total (Worker.holds id) (Function.update s.worker w l) =
        sh.dequeued.count id
      omega
  case freed => exact fun hfreed => absurd hfreed.freeing hfreeing

theorem invariant_client [DecidableEq κ] (h : Invariant s) {k : κ} {pc : AddPc}
    {sh : Shared n κ} {pc' : Option AddPc} (hpc : s.client k = some pc)
    (hstep : AddStep (Sum.inr k) s.shared pc sh pc') :
    Invariant { s with shared := sh, client := Function.update s.client k pc' } := by
  have hsame := hstep.sameDestroy
  have hlength := hstep.length_le
  have hsem := hstep.sem_le
  obtain ⟨hdequeued, hexecuted, horder⟩ := hstep.order
  have hfreeing : ¬ s.destroy.Freeing := fun hfree => by
    rw [h.clients hfree k] at hpc
    cases hpc
  constructor
  case quit =>
      show sh.quit = true ↔ s.destroy.AfterQuit
      rw [hsame.quit]
      exact h.quit
  case balance =>
      intro hquit
      have hlocal := hstep.balance
      have hsum := total_update clientOwes s.client k pc'
      have hold := h.balance (hsame.quit ▸ hquit)
      rw [hpc] at hsum
      rw [show clientOwes (some pc) = pc.owes from rfl] at hsum
      show sh.tasks.length = sh.sem + total Worker.tokens s.worker +
        total clientOwes (Function.update s.client k pc')
      omega
  case committed => exact fun hquit => (h.committed (hsame.quit ▸ hquit)).trans hlength
  case waiting =>
      intro hquit
      have hold := h.waiting (hsame.quit ▸ hquit)
      show total Worker.waiting s.worker ≤ sh.sem + s.destroy.postsLeft
      omega
  case joined => exact h.joined
  case clients => exact fun hfree => absurd hfree hfreeing
  case order =>
      show sh.dequeued ++ sh.destroyed ++ sh.tasks = List.range sh.added
      rw [hdequeued, hsame.destroyed]
      exact horder _ h.order
  case destroyed => exact fun hfree => hsame.destroyed.trans (h.destroyed hfree)
  case executed =>
      intro id
      show sh.executed.count id + total (Worker.holds id) s.worker = sh.dequeued.count id
      rw [hexecuted, hdequeued]
      exact h.executed id
  case freed => exact fun hfreed => absurd hfreed.freeing hfreeing

theorem invariant_addTask [DecidableEq κ] (h : Invariant s) {k : κ}
    (hpc : s.client k = none) (hfree : ¬ s.destroy.Freeing) :
    Invariant { s with client := Function.update s.client k (some .lock) } where
  quit := h.quit
  balance := fun hquit => by
    have hsum := total_update clientOwes s.client k (some .lock)
    have hold := h.balance hquit
    rw [hpc] at hsum
    simp only [clientOwes, AddPc.owes] at hsum
    show s.shared.tasks.length = s.shared.sem + total Worker.tokens s.worker +
      total clientOwes (Function.update s.client k (some .lock))
    omega
  committed := h.committed
  waiting := h.waiting
  joined := h.joined
  clients := fun hfreeing => absurd hfreeing hfree
  order := h.order
  destroyed := h.destroyed
  executed := h.executed
  freed := h.freed

/-- A step of `simple_thread_pool_destroy` that only moves its program point. -/
theorem Invariant.setDestroy (h : Invariant s) (d : DestroyPc n)
    (hquit : d.AfterQuit ↔ s.destroy.AfterQuit)
    (hposts : d.postsLeft = s.destroy.postsLeft)
    (hjoined : ∀ w, d.Joined w → (s.worker w).pc = .exited)
    (hclients : d.Freeing → ∀ k, s.client k = none)
    (hfreeing : s.destroy.Freeing → d.Freeing)
    (hfreed : d.Freed → s.shared.tasks = []) :
    Invariant { s with destroy := d } where
  quit := h.quit.trans hquit.symm
  balance := h.balance
  committed := h.committed
  waiting := fun hq => hposts ▸ h.waiting hq
  joined := hjoined
  clients := hclients
  order := h.order
  destroyed := fun hnot => h.destroyed fun hfree => hnot (hfreeing hfree)
  executed := h.executed
  freed := hfreed

theorem invariant_setQuit (h : Invariant s) (hd : s.destroy = .setQuit) :
    Invariant { s with shared := { s.shared with quit := true }, destroy := .post 0 } where
  quit := iff_of_true rfl trivial
  balance := fun hq => by cases hq
  committed := fun _ => h.committed_le
  waiting := fun _ => by
    have hcard := total_le_card waiting_le_one s.worker
    rw [Fintype.card_fin] at hcard
    show total Worker.waiting s.worker ≤ s.shared.sem + (n - 0)
    omega
  joined := fun _ hw => absurd hw id
  clients := fun hfree => absurd hfree id
  order := h.order
  destroyed := fun _ => h.destroyed (by rw [hd]; exact id)
  executed := h.executed
  freed := fun hfreed => absurd hfreed id

theorem invariant_post (h : Invariant s) {i : ℕ} (hd : s.destroy = .post i) (hi : i < n) :
    Invariant { s with
      shared := { s.shared with sem := s.shared.sem + 1 }, destroy := .post (i + 1) } := by
  have hquit : s.shared.quit = true := h.quit.mpr (by rw [hd]; trivial)
  exact {
    quit := iff_of_true hquit trivial
    balance := fun hq => by
      rw [hquit] at hq
      cases hq
    committed := h.committed
    waiting := fun _ => by
      have hold := h.waiting hquit
      rw [hd] at hold
      simp only [DestroyPc.postsLeft] at hold ⊢
      omega
    joined := fun _ hw => absurd hw id
    clients := fun hfree => absurd hfree id
    order := h.order
    destroyed := fun _ => h.destroyed (by rw [hd]; exact id)
    executed := h.executed
    freed := fun hfreed => absurd hfreed id }

theorem invariant_freeTask (h : Invariant s) {task : ℕ} {rest : List ℕ}
    (hd : s.destroy = .freeTasks) (htasks : s.shared.tasks = task :: rest) :
    Invariant { s with
      shared := { s.shared with tasks := rest, destroyed := s.shared.destroyed ++ [task] } } := by
  have hquit : s.shared.quit = true := h.quit.mpr (by rw [hd]; trivial)
  have hexited : ∀ w, (s.worker w).pc = .exited := fun w => h.joined w (by rw [hd]; trivial)
  exact {
    quit := h.quit
    balance := fun hq => by
      rw [show s.shared.quit = true from hquit] at hq
      cases hq
    committed := fun _ => by
      rw [total_eq_zero fun w => by rw [Worker.committed, hexited w]]
      exact Nat.zero_le _
    waiting := h.waiting
    joined := h.joined
    clients := h.clients
    order := by
      have hold := h.order
      rw [htasks] at hold
      simpa using hold
    destroyed := fun hnot => absurd (show s.destroy.Freeing by rw [hd]; trivial) hnot
    executed := h.executed
    freed := fun hfreed => by
      rw [show s.destroy = .freeTasks from hd] at hfreed
      exact absurd hfreed id }

theorem invariant_destroy (h : Invariant s) {t : Pool n κ} (hstep : DestroyStep s t) :
    Invariant t := by
  have hexited : ∀ {d : DestroyPc n}, s.destroy = d → d.Freeing →
      ∀ w, (s.worker w).pc = .exited :=
    fun hd hfree w => h.joined w (hd ▸ hfree.joined w)
  cases hstep with
  | begin hd =>
      exact h.setDestroy .setQuit (by rw [hd]; exact Iff.rfl) (by rw [hd]; rfl)
        (fun _ hw => absurd hw id) (fun hfree => absurd hfree id)
        (fun hfree => by rw [hd] at hfree; exact hfree) (fun hfreed => absurd hfreed id)
  | setQuit hd => exact invariant_setQuit h hd
  | post hd hi => exact invariant_post h hd hi
  | posted hd =>
      exact h.setDestroy (.join (List.finRange n).reverse) (by rw [hd]; exact Iff.rfl)
        (by rw [hd]; exact (Nat.sub_self n).symm)
        (fun w hw => absurd (List.mem_reverse.mpr (List.mem_finRange w)) hw)
        (fun hfree => absurd hfree id) (fun hfree => by rw [hd] at hfree; exact hfree)
        (fun hfreed => absurd hfreed id)
  | @join w ws hd hw =>
      refine h.setDestroy (.join ws) (by rw [hd]; exact Iff.rfl) (by rw [hd]; rfl)
        (fun w' hw' => ?_) (fun hfree => absurd hfree id)
        (fun hfree => by rw [hd] at hfree; exact hfree) (fun hfreed => absurd hfreed id)
      by_cases heq : w' = w
      · rw [heq]
        exact hw
      · refine h.joined w' ?_
        rw [hd]
        exact fun hmem => hw' ((List.mem_cons.mp hmem).resolve_left heq)
  | joined hd hclients =>
      exact h.setDestroy .freeTasks (by rw [hd]; exact Iff.rfl) (by rw [hd]; rfl)
        (fun w _ => h.joined w (by rw [hd]; exact List.not_mem_nil)) (fun _ => hclients)
        (fun _ => trivial) (fun hfreed => absurd hfreed id)
  | freeTask hd htasks => exact invariant_freeTask h hd htasks
  | freedTasks hd htasks =>
      exact h.setDestroy .destroyLock (by rw [hd]; exact Iff.rfl) (by rw [hd]; rfl)
        (fun w _ => hexited hd trivial w) (fun _ => h.clients (by rw [hd]; trivial))
        (fun _ => trivial) (fun _ => htasks)
  | destroyLock hd =>
      exact h.setDestroy .destroySem (by rw [hd]; exact Iff.rfl) (by rw [hd]; rfl)
        (fun w _ => hexited hd trivial w) (fun _ => h.clients (by rw [hd]; trivial))
        (fun _ => trivial) (fun _ => h.freed (by rw [hd]; trivial))
  | destroySem hd =>
      exact h.setDestroy .freePool (by rw [hd]; exact Iff.rfl) (by rw [hd]; rfl)
        (fun w _ => hexited hd trivial w) (fun _ => h.clients (by rw [hd]; trivial))
        (fun _ => trivial) (fun _ => h.freed (by rw [hd]; trivial))
  | freePool hd =>
      exact h.setDestroy .done (by rw [hd]; exact Iff.rfl) (by rw [hd]; rfl)
        (fun w _ => hexited hd trivial w) (fun _ => h.clients (by rw [hd]; trivial))
        (fun _ => trivial) (fun _ => h.freed (by rw [hd]; trivial))

theorem invariant_step [DecidableEq κ] (s t : Pool n κ) (h : Invariant s) (hstep : Step s t) :
    Invariant t := by
  cases hstep with
  | worker w hw => exact invariant_worker h hw
  | client k hpc hadd => exact invariant_client h hpc hadd
  | addTask k hpc hfree => exact invariant_addTask h hpc hfree
  | destroy hd => exact invariant_destroy h hd

theorem invariant_reachable [DecidableEq κ] (h : Reachable s) : Invariant s :=
  invariant invariant_step invariant_create h

end Kept

end LibSimple.ThreadPool
