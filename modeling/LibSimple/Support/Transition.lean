import Mathlib.Algebra.BigOperators.Group.Finset.Basic
import Mathlib.Algebra.Order.BigOperators.Group.Finset
import Mathlib.Logic.Relation

/-!
# Transition systems of many agents

An invariant rule for the states that a system can reach, a rule for the steps at
which a run loses a property, the rule for a lock that only one agent holds, and
the arithmetic of weights: a system of agents with local states is measured by
the sum of a weight over all of them, and a step of one agent changes the sum by
the difference of two weights.
-/

namespace Transition

open Relation

/-- What holds at the start and is kept by every step holds in every reachable
state. -/
theorem invariant {State : Type*} {step : State → State → Prop} {P : State → Prop} {s t : State}
    (hstep : ∀ s t, P s → step s t → P t) (hs : P s) (h : ReflTransGen step s t) : P t := by
  induction h with
  | refl => exact hs
  | tail _ hlast ih => exact hstep _ _ ih hlast

/-- If every step of a system is matched by some steps of an abstract one, so is
every run. -/
theorem simulation {State AState : Type*} {step : State → State → Prop}
    {astep : AState → AState → Prop} {R : State → AState → Prop}
    (hsim : ∀ s a t, R s a → step s t → ∃ b, ReflTransGen astep a b ∧ R t b)
    {s t : State} {a : AState} (hs : R s a) (h : ReflTransGen step s t) :
    ∃ b, ReflTransGen astep a b ∧ R t b := by
  induction h with
  | refl => exact ⟨a, .refl, hs⟩
  | tail _ hlast ih =>
      obtain ⟨b, hab, hb⟩ := ih
      obtain ⟨c, hbc, hc⟩ := hsim _ _ _ hb hlast
      exact ⟨c, hab.trans hbc, hc⟩

/-- Along a run a property is lost exactly at a step that breaks `C`: the
invariant `I` gives the property, steps that keep `C` keep `I`, and a step that
breaks `C` ends in a state without the property. -/
theorem forall_mem_iff_isChain {State : Type*} {step C : State → State → Prop}
    {I P : State → Prop} (hgood : ∀ s, I s → P s)
    (hkeep : ∀ s t, I s → step s t → C s t → I t)
    (hbreak : ∀ s t, I s → step s t → ¬ C s t → ¬ P t) {s : State} {run : List State}
    (hs : I s) (hrun : (s :: run).IsChain step) :
    (∀ t ∈ s :: run, P t) ↔ (s :: run).IsChain C := by
  induction run generalizing s with
  | nil => simp [hgood s hs]
  | cons t run ih =>
      obtain ⟨hstep, hrest⟩ := List.isChain_cons_cons.mp hrun
      rw [List.forall_mem_cons, List.isChain_cons_cons]
      by_cases hC : C s t
      · rw [ih (hkeep s t hs hstep hC) hrest]
        exact and_congr (iff_of_true (hgood s hs) hC) Iff.rfl
      · have hP : ¬ P t := hbreak s t hs hstep hC
        exact iff_of_false (fun h => hP (h.2 t List.mem_cons_self)) (fun h => hC h.1)

/-! ## Locks -/

/-- What a step of agent `a` may do with a lock, given whether the agent is inside
the critical section before and after it. -/
inductive LockMove {Agent : Type*} (a : Agent) :
    Option Agent → Prop → Option Agent → Prop → Prop
  | keep {l P Q} (h : Q → P) : LockMove a l P l Q
  | acquire {P Q} : LockMove a none P (some a) Q
  | release {l P Q} (hP : P) (hQ : ¬ Q) : LockMove a l P none Q

/-- Whoever is inside holds the lock, also after a step of one agent. -/
theorem LockMove.held {Agent : Type*} {a : Agent} {l l' : Option Agent} {P Q : Agent → Prop}
    (h : LockMove a l (P a) l' (Q a)) (hheld : ∀ b, P b → l = some b)
    (hrest : ∀ b, b ≠ a → Q b → P b) : ∀ b, Q b → l' = some b := by
  intro b hb
  by_cases hba : b = a
  · subst hba
    cases h with
    | keep hstay => exact hheld b (hstay hb)
    | acquire => rfl
    | release hin hout => exact absurd hb hout
  · have hin := hheld b (hrest b hba hb)
    cases h with
    | keep hstay => exact hin
    | acquire => exact absurd hin nofun
    | release hself hout =>
        have hself := hheld a hself
        rw [hin] at hself
        exact absurd (Option.some.inj hself) hba

/-- What a step of agent `a` may do with a lock so that only an agent inside the critical
section holds it: whoever holds it afterwards is `a` inside, or has held it before. -/
def LockKept {Agent : Type*} (a : Agent) (l : Option Agent) (P : Prop) (l' : Option Agent)
    (Q : Prop) : Prop :=
  ∀ b, l' = some b → b = a ∧ Q ∨ l = some b ∧ (P → Q)

/-- Whoever holds the lock is inside, also after a step of one agent. -/
theorem LockKept.inside {Agent : Type*} {a : Agent} {l l' : Option Agent} {P Q : Agent → Prop}
    (h : LockKept a l (P a) l' (Q a)) (hinside : ∀ b, l = some b → P b)
    (hrest : ∀ b, b ≠ a → P b → Q b) : ∀ b, l' = some b → Q b := by
  intro b hb
  rcases h b hb with ⟨rfl, hin⟩ | ⟨hheld, hin⟩
  · exact hin
  · by_cases hba : b = a
    · rw [hba] at hheld ⊢
      exact hin (hinside a hheld)
    · exact hrest b hba (hinside b hheld)

/-! ## Weights -/

variable {Agent Local : Type*} [Fintype Agent]

/-- The sum of a weight over the local states of all agents. -/
def total (weight : Local → ℕ) (f : Agent → Local) : ℕ := ∑ a, weight (f a)

/-- One agent moves. -/
theorem total_update [DecidableEq Agent] (weight : Local → ℕ) (f : Agent → Local) (a : Agent)
    (x : Local) :
    total weight (Function.update f a x) + weight (f a) = total weight f + weight x := by
  have hx : Function.update f a x a = x := Function.update_self a x f
  have hrest : ∑ b ∈ Finset.univ.erase a, weight (Function.update f a x b) =
      ∑ b ∈ Finset.univ.erase a, weight (f b) := by
    refine Finset.sum_congr rfl fun b hb => ?_
    rw [Function.update_of_ne (Finset.ne_of_mem_erase hb)]
  have hnew := Finset.add_sum_erase Finset.univ
    (fun b => weight (Function.update f a x b)) (Finset.mem_univ a)
  have hold := Finset.add_sum_erase Finset.univ (fun b => weight (f b)) (Finset.mem_univ a)
  simp only [hx, hrest] at hnew
  rw [total, total, ← hnew, ← hold]
  omega

theorem weight_le_total (weight : Local → ℕ) (f : Agent → Local) (a : Agent) :
    weight (f a) ≤ total weight f :=
  Finset.single_le_sum (f := fun b => weight (f b)) (fun _ _ => Nat.zero_le _)
    (Finset.mem_univ a)

theorem total_le_total {weight weight' : Local → ℕ} (h : ∀ x, weight x ≤ weight' x)
    (f : Agent → Local) : total weight f ≤ total weight' f :=
  Finset.sum_le_sum fun a _ => h (f a)

theorem total_eq_zero {weight : Local → ℕ} {f : Agent → Local} (h : ∀ a, weight (f a) = 0) :
    total weight f = 0 :=
  Finset.sum_eq_zero fun a _ => h a

theorem total_le_card {weight : Local → ℕ} (h : ∀ x, weight x ≤ 1) (f : Agent → Local) :
    total weight f ≤ Fintype.card Agent := by
  calc
    total weight f ≤ ∑ _a : Agent, 1 := Finset.sum_le_sum fun a _ => h (f a)
    _ = Fintype.card Agent := (Finset.card_eq_sum_ones Finset.univ).symm

end Transition
