import LibSimple.ThreadPool.Model

/-!
# The lock of the task list

The accesses to the list of tasks are single steps of the model.  That is what
the lock is for: at any time at most one thread is between taking and releasing
it.
-/

namespace LibSimple.ThreadPool

open Transition

variable {n : ℕ} {κ : Type}

/-- Between taking and releasing the lock. -/
def AddPc.Inside : AddPc → Prop
  | .push | .unlock => True
  | .lock | .post => False

def WorkerPc.Inside : WorkerPc → Prop
  | .dequeue | .unlock => True
  | .add pc => pc.Inside
  | _ => False

def Pool.Inside (s : Pool n κ) : Thread n κ → Prop
  | Sum.inl w => (s.worker w).pc.Inside
  | Sum.inr k => ∃ pc ∈ s.client k, pc.Inside

theorem AddStep.lockMove {a : Thread n κ} {sh sh' : Shared n κ} {pc : AddPc}
    {pc' : Option AddPc} (h : AddStep a sh pc sh' pc') :
    LockMove a sh.lock pc.Inside sh'.lock (∃ pc₁ ∈ pc', pc₁.Inside) := by
  cases h with
  | lock hlock =>
      rw [hlock]
      exact .acquire
  | push => exact .keep fun _ => trivial
  | unlock =>
      refine .release trivial ?_
      rintro ⟨_, ⟨⟩, hin⟩
      exact hin
  | post =>
      refine .keep ?_
      rintro ⟨_, ⟨⟩, -⟩

theorem inside_afterAdd {pc : Option AddPc} : (afterAdd pc).Inside ↔ ∃ pc₁ ∈ pc, pc₁.Inside := by
  cases pc with
  | none =>
      constructor
      · exact False.elim
      · rintro ⟨_, ⟨⟩, -⟩
  | some pc₁ =>
      constructor
      · exact fun h => ⟨pc₁, rfl, h⟩
      · rintro ⟨_, ⟨⟩, h⟩
        exact h

theorem WorkerStep.lockMove {a : Thread n κ} {sh sh' : Shared n κ} {l l' : Worker}
    (h : WorkerStep a sh l sh' l') :
    LockMove a sh.lock l.pc.Inside sh'.lock l'.pc.Inside := by
  cases h with
  | lock hlock =>
      rw [hlock]
      exact .acquire
  | dequeue htasks => exact .keep fun _ => trivial
  | dequeueEmpty htasks => exact .keep fun _ => trivial
  | unlock => exact .release trivial not_false
  | add hadd =>
      rw [inside_afterAdd]
      exact hadd.lockMove
  | _ => exact .keep False.elim

/-- Whoever is between taking and releasing the lock holds it. -/
def LockHeld (s : Pool n κ) : Prop := ∀ a, s.Inside a → s.shared.lock = some a

theorem DestroyStep.inside_iff {s t : Pool n κ} (h : DestroyStep s t) (a : Thread n κ) :
    (t.Inside a ↔ s.Inside a) ∧ t.shared.lock = s.shared.lock := by
  cases h <;> exact ⟨Iff.rfl, rfl⟩

theorem lockHeld_step [DecidableEq κ] (s t : Pool n κ) (h : LockHeld s) (hstep : Step s t) :
    LockHeld t := by
  cases hstep with
  | @worker w sh l hworker =>
      refine LockMove.held (a := Sum.inl w) (P := s.Inside) ?_ h ?_
      · have hself : Function.update s.worker w l w = l := Function.update_self w l s.worker
        simp only [Pool.Inside, hself]
        exact hworker.lockMove
      · rintro (w' | k') hne hin
        · have hw : w' ≠ w := fun heq => hne (heq ▸ rfl)
          simp only [Pool.Inside, Function.update_of_ne hw] at hin
          exact hin
        · exact hin
  | @client k pc sh pc' hpc hclient =>
      refine LockMove.held (a := Sum.inr k) (P := s.Inside) ?_ h ?_
      · have hself : Function.update s.client k pc' k = pc' := Function.update_self k pc' s.client
        have hbefore : s.Inside (Sum.inr k) ↔ pc.Inside := by
          simp [Pool.Inside, hpc]
        rw [hbefore]
        simp only [Pool.Inside, hself]
        exact hclient.lockMove
      · rintro (w' | k') hne hin
        · exact hin
        · have hk : k' ≠ k := fun heq => hne (heq ▸ rfl)
          simp only [Pool.Inside, Function.update_of_ne hk] at hin
          exact hin
  | @addTask k hpc hfree =>
      rintro (w' | k') hin
      · exact h _ hin
      · by_cases hk : k' = k
        · subst hk
          simp [Pool.Inside, AddPc.Inside] at hin
        · simp only [Pool.Inside, Function.update_of_ne hk] at hin
          exact h (Sum.inr k') hin
  | destroy hdestroy =>
      intro a ha
      obtain ⟨hinside, hlock⟩ := hdestroy.inside_iff a
      rw [hlock]
      exact h a (hinside.mp ha)

/-- No two threads are at the list of tasks at the same time. -/
theorem eq_of_inside [DecidableEq κ] {s : Pool n κ} (h : Reachable s) {a b : Thread n κ}
    (ha : s.Inside a) (hb : s.Inside b) : a = b := by
  have hstart : LockHeld (simpleThreadPoolCreate n κ) := by
    rintro (w | k) hin
    · exact hin.elim
    · obtain ⟨pc, hpc, -⟩ := hin
      exact absurd hpc nofun
  have hheld : LockHeld s := Transition.invariant lockHeld_step hstart h
  exact Option.some.inj ((hheld a ha).symm.trans (hheld b hb))

/-! ## Nobody else holds it -/

theorem AddStep.lockKept {a : Thread n κ} {sh sh' : Shared n κ} {pc : AddPc}
    {pc' : Option AddPc} (h : AddStep a sh pc sh' pc') :
    LockKept a sh.lock pc.Inside sh'.lock (∃ pc₁ ∈ pc', pc₁.Inside) := by
  intro b hb
  cases h with
  | lock hlock => exact .inl ⟨(Option.some.inj hb).symm, .push, rfl, trivial⟩
  | push => exact .inr ⟨hb, fun _ => ⟨.unlock, rfl, trivial⟩⟩
  | unlock => cases hb
  | post => exact .inr ⟨hb, False.elim⟩

theorem WorkerStep.lockKept {a : Thread n κ} {sh sh' : Shared n κ} {l l' : Worker}
    (h : WorkerStep a sh l sh' l') :
    LockKept a sh.lock l.pc.Inside sh'.lock l'.pc.Inside := by
  cases h with
  | add hadd =>
      rw [inside_afterAdd]
      exact hadd.lockKept
  | lock hlock => exact fun b hb => .inl ⟨(Option.some.inj hb).symm, trivial⟩
  | unlock => exact fun b hb => by cases hb
  | dequeue htasks => exact fun b hb => .inr ⟨hb, fun _ => trivial⟩
  | dequeueEmpty htasks => exact fun b hb => .inr ⟨hb, fun _ => trivial⟩
  | _ => exact fun b hb => .inr ⟨hb, False.elim⟩

/-- Whoever holds the lock is between taking and releasing it. -/
def HolderInside (s : Pool n κ) : Prop := ∀ a, s.shared.lock = some a → s.Inside a

theorem holderInside_step [DecidableEq κ] (s t : Pool n κ) (h : HolderInside s)
    (hstep : Step s t) : HolderInside t := by
  cases hstep with
  | @worker w sh l hworker =>
      refine LockKept.inside (a := Sum.inl w) (P := s.Inside) ?_ h ?_
      · have hself : Function.update s.worker w l w = l := Function.update_self w l s.worker
        simp only [Pool.Inside, hself]
        exact hworker.lockKept
      · rintro (w' | k') hne hin
        · have hw : w' ≠ w := fun heq => hne (heq ▸ rfl)
          simp only [Pool.Inside, Function.update_of_ne hw]
          exact hin
        · exact hin
  | @client k pc sh pc' hpc hclient =>
      refine LockKept.inside (a := Sum.inr k) (P := s.Inside) ?_ h ?_
      · have hself : Function.update s.client k pc' k = pc' := Function.update_self k pc' s.client
        have hbefore : s.Inside (Sum.inr k) ↔ pc.Inside := by
          simp [Pool.Inside, hpc]
        rw [hbefore]
        simp only [Pool.Inside, hself]
        exact hclient.lockKept
      · rintro (w' | k') hne hin
        · exact hin
        · have hk : k' ≠ k := fun heq => hne (heq ▸ rfl)
          simp only [Pool.Inside, Function.update_of_ne hk]
          exact hin
  | @addTask k hpc hfree =>
      rintro (w' | k') hlock
      · exact h _ hlock
      · have hin := h _ hlock
        by_cases hk : k' = k
        · subst hk
          simp [Pool.Inside, hpc] at hin
        · simp only [Pool.Inside, Function.update_of_ne hk]
          exact hin
  | destroy hdestroy =>
      intro a ha
      obtain ⟨hinside, hlock⟩ := hdestroy.inside_iff a
      exact hinside.mpr (h a (hlock ▸ ha))

/-- A lock that is taken is going to be released: its holder is not blocked. -/
theorem inside_of_lock [DecidableEq κ] {s : Pool n κ} (h : Reachable s) {a : Thread n κ}
    (hlock : s.shared.lock = some a) : s.Inside a := by
  have hstart : HolderInside (simpleThreadPoolCreate n κ) := fun a ha => by cases ha
  exact Transition.invariant holderInside_step hstart h a hlock

end LibSimple.ThreadPool
