import LibSimple.Ptz.Model

/-!
# Shutting down the PTZ thread

`Ptz::~Ptz` sets `quit_` and joins the thread, but does not post.  Whether the
thread notices is settled at that moment: from then on it is never again about to
wait without a token, unless it was so already, and then only a call from outside
wakes it.  The number of posts and the length of the queue do not matter, since
the loop reads `quit_` after every wait.
-/

namespace LibSimple.Ptz

open Transition

variable {κ Task : Type} {dev : Device Task}

/-- The thread is in `sem_.wait()` with count zero. -/
def Blocked (s : State κ Task) : Prop := s.worker = .wait ∧ s.shared.sem = 0

/-- The destructor waits for a thread that is blocked. -/
def Stuck (s : State κ Task) : Prop := s.destroy = .join ∧ Blocked s

/-- The destructor sets `quit_` between the two states. -/
def SetsQuit (s t : State κ Task) : Prop := s.destroy = .idle ∧ t.destroy = .join

/-! ## One step -/

/-- No call takes a token or touches `quit_`. -/
theorem AddStep.keeps {a : Option κ} {sh sh' : Shared κ Task} {pc pc'}
    (h : AddStep a sh pc sh' pc') : sh'.quit = sh.quit ∧ sh.sem ≤ sh'.sem := by
  cases h with
  | lock hfree => exact ⟨rfl, le_rfl⟩
  | pushBack => exact ⟨rfl, le_rfl⟩
  | unlock => exact ⟨rfl, le_rfl⟩
  | post => exact ⟨rfl, Nat.le_succ _⟩

theorem Caller.resume_ne_wait (c : Caller Task) : c.resume ≠ .wait := by
  cases c <;> nofun

theorem afterAdd_ne_wait (c : Caller Task) (pc : Option (AddPc Task)) : afterAdd c pc ≠ .wait := by
  cases pc with
  | none => exact c.resume_ne_wait
  | some pc => nofun

/-- The thread comes to its wait only from a test of `quit_`. -/
theorem WorkerStep.quit_of_wait {sh sh' : Shared κ Task} {pc}
    (h : WorkerStep dev sh pc sh' .wait) : sh'.quit = false := by
  generalize hpc : WorkerPc.wait = pc' at h
  cases h with
  | testRun hquit => exact hquit
  | add _ => exact absurd hpc.symm (afterAdd_ne_wait _ _)
  | _ => cases hpc

theorem WorkerStep.quit_eq {sh sh' : Shared κ Task} {pc pc'}
    (h : WorkerStep dev sh pc sh' pc') : sh'.quit = sh.quit := by
  cases h with
  | add hadd => exact hadd.keeps.1
  | _ => rfl

/-- A blocked thread takes no step. -/
theorem WorkerStep.not_blocked {s : State κ Task} {sh pc}
    (h : WorkerStep dev s.shared s.worker sh pc) : ¬ Blocked s := by
  rintro ⟨hwait, hsem⟩
  rw [hwait] at h
  cases h with
  | wait hpos => omega

/-! ## Runs -/

/-- While the destructor waits, `quit_` is set and the thread is not blocked. -/
def Awake (s : State κ Task) : Prop :=
  s.destroy = .join → s.shared.quit = true ∧ ¬ Blocked s

theorem awake_create : Awake (create κ Task) := nofun

theorem Awake.not_stuck {s : State κ Task} (h : Awake s) : ¬ Stuck s :=
  fun hstuck => (h hstuck.1).2 hstuck.2

variable [DecidableEq κ]

/-- An awake thread stays so at every step but one: the destructor must not set
`quit_` while the thread is blocked. -/
theorem Awake.step {s t : State κ Task} (hs : Awake s) (h : Step dev s t)
    (hset : SetsQuit s t → ¬ Blocked s) : Awake t := by
  intro hjoin
  cases h with
  | worker hstep =>
      obtain ⟨hquit, -⟩ := hs hjoin
      have hkeep := hstep.quit_eq
      refine ⟨hkeep.trans hquit, ?_⟩
      rintro ⟨hwait, -⟩
      cases hwait
      rw [hstep.quit_of_wait, hquit] at hkeep
      cases hkeep
  | client k hpc hstep =>
      obtain ⟨hquit, hblocked⟩ := hs hjoin
      obtain ⟨hkeep, hsem⟩ := hstep.keeps
      refine ⟨hkeep.trans hquit, ?_⟩
      rintro ⟨hwait, hzero⟩
      exact hblocked ⟨hwait, Nat.eq_zero_of_le_zero (hsem.trans hzero.le)⟩
  | call k hpc hlive hcall => exact hs hjoin
  | destroy hstep =>
      cases hstep with
      | setQuit hidle => exact ⟨rfl, hset ⟨hidle, hjoin⟩⟩
      | join _ hexited => cases hjoin

/-- Setting `quit_` does not wake the thread. -/
theorem stuck_of_setsQuit {s t : State κ Task} (h : Step dev s t) (hset : SetsQuit s t)
    (hblocked : Blocked s) : Stuck t := by
  obtain ⟨hidle, hjoin⟩ := hset
  cases h with
  | worker hstep => exact absurd hblocked hstep.not_blocked
  | client k hpc hstep => cases hidle.symm.trans hjoin
  | call k hpc hlive hcall => cases hidle.symm.trans hjoin
  | destroy hstep =>
      cases hstep with
      | setQuit _ => exact ⟨rfl, hblocked⟩
      | join hj _ => cases hidle.symm.trans hj

/-- Once stuck, the destructor and the thread stay so until a caller posts. -/
theorem Stuck.step {s t : State κ Task} (hs : Stuck s) (h : Step dev s t) :
    Stuck t ∨ ∃ k, s.client k = some .post := by
  obtain ⟨hjoin, hblocked⟩ := hs
  cases h with
  | worker hstep => exact absurd hblocked hstep.not_blocked
  | client k hpc hstep =>
      cases hstep with
      | lock _ => exact .inl ⟨hjoin, hblocked⟩
      | pushBack => exact .inl ⟨hjoin, hblocked⟩
      | unlock => exact .inl ⟨hjoin, hblocked⟩
      | post => exact .inr ⟨k, hpc⟩
  | call k hpc hlive hcall => exact .inl ⟨hjoin, hblocked⟩
  | destroy hstep =>
      cases hstep with
      | setQuit hidle => cases hjoin.symm.trans hidle
      | join _ hexited => cases hblocked.1.symm.trans hexited

/-- The destructor waits for a blocked thread in some state of a run exactly if it
set `quit_` while the thread was blocked. -/
theorem never_stuck_iff {run : List (State κ Task)}
    (hrun : (create κ Task :: run).IsChain (Step dev)) :
    (∀ s ∈ create κ Task :: run, ¬ Stuck s) ↔
      (create κ Task :: run).IsChain fun s t => SetsQuit s t → ¬ Blocked s := by
  refine @forall_mem_iff_isChain _ (Step dev) (fun s t => SetsQuit s t → ¬ Blocked s) Awake _
    (fun s => Awake.not_stuck) (fun s t => Awake.step) (fun s t _ hstep hbad hgood => ?_) _ _
    awake_create hrun
  obtain ⟨hset, hblocked⟩ := Classical.not_imp.mp hbad
  exact hgood (stuck_of_setsQuit hstep hset (not_not.mp hblocked))

/-- A thread without a device and without callers. -/
def alone (pc : WorkerPc Unit) (quit : Bool) (destroy : DestroyPc) : State Empty Unit where
  shared := ⟨quit, 0, none, []⟩
  worker := pc
  client := fun _ => none
  destroy := destroy

/-- The states of a run in which the destructor comes before the thread has tested
`quit_`. -/
def early : List (State Empty Unit) :=
  [create Empty Unit, alone .reset true .join, alone .test true .join, alone .exited true .join,
    alone .exited true .done]

theorem never_stuck_iff_early :
    early.IsChain (Step ⟨false, fun _ _ _ => ()⟩) ∧ ∀ s ∈ early, ¬ Stuck s := by
  have hrun : early.IsChain (Step ⟨false, fun _ _ _ => ()⟩) :=
    .cons_cons (.destroy (.setQuit rfl)) (.cons_cons (.worker (.resetNone rfl))
      (.cons_cons (.worker (.testQuit rfl)) (.cons_cons (.destroy (.join rfl rfl)) (.singleton _))))
  refine ⟨hrun, (never_stuck_iff hrun).mpr ?_⟩
  refine .cons_cons (fun _ => ?_) (.cons_cons ?_ (.cons_cons ?_ (.cons_cons ?_ (.singleton _))))
  · rintro ⟨hwait, -⟩
    cases hwait
  · rintro ⟨hidle, -⟩
    cases hidle
  · rintro ⟨hidle, -⟩
    cases hidle
  · rintro ⟨hidle, -⟩
    cases hidle

/-- Without a task to do the thread waits, and the destructor does not wake it. -/
theorem not_never_stuck :
    ¬ ∀ (dev : Device Unit) (s : State Empty Unit), Reachable dev s → ¬ Stuck s := by
  intro hsafe
  have h : Reachable ⟨false, fun _ _ _ => ()⟩ (create Empty Unit) := .refl
  have h := h.tail (.worker (.resetNone rfl))
  have h := h.tail (.worker (.testRun rfl))
  have h := h.tail (.destroy (.setQuit rfl))
  exact hsafe _ _ h ⟨rfl, rfl, rfl⟩

end LibSimple.Ptz
