import Mathlib.Data.List.Basic
import Mathlib.Logic.Basic

/-!
# Runs of a machine with inputs and outputs

A machine that takes one input at a time, may fail on it, and otherwise goes on with some
outputs.  The run is kept as the list of its events, the newest first, each with the
states on both sides.
-/

namespace EventRuns

variable {State Input Output : Type*}

/-- An input, with the states before and after it and what comes out. -/
structure Event (State Input Output : Type*) where
  before : State
  input : Input
  after : State
  outputs : List Output

/-- A run from `s`, the newest event first. -/
inductive Run (step : State → Input → Option (State × List Output)) (s : State) :
    List (Event State Input Output) → State → Prop
  | nil : Run step s [] s
  | cons {events t} (hrun : Run step s events t) {i u outs} (hstep : step t i = some (u, outs)) :
      Run step s (⟨t, i, u, outs⟩ :: events) u

/-- Everything that has come out, in the order in which it came. -/
def outputs (events : List (Event State Input Output)) : List Output :=
  events.reverse.flatMap Event.outputs

theorem outputs_cons (e : Event State Input Output) (events : List (Event State Input Output)) :
    outputs (e :: events) = outputs events ++ e.outputs := by
  rw [outputs, List.reverse_cons, List.flatMap_append, List.flatMap_singleton, outputs]

variable {step : State → Input → Option (State × List Output)} {s t : State}
  {events later earlier : List (Event State Input Output)}

/-- A property of a run and its last state that every step keeps. -/
theorem Run.induct {P : List (Event State Input Output) → State → Prop} (hnil : P [] s)
    (hcons : ∀ events t i u outs, Run step s events t → P events t →
      step t i = some (u, outs) → P (⟨t, i, u, outs⟩ :: events) u)
    (hrun : Run step s events t) : P events t := by
  induction hrun with
  | nil => exact hnil
  | cons hrun hstep ih => exact hcons _ _ _ _ _ hrun ih hstep

/-- What holds at the start and is kept by every step holds at the end. -/
theorem Run.invariant {P : State → Prop} (hs : P s)
    (hstep : ∀ s i t outs, P s → step s i = some (t, outs) → P t)
    (hrun : Run step s events t) : P t :=
  hrun.induct (P := fun _ t => P t) hs fun _ _ _ _ _ _ hP h => hstep _ _ _ _ hP h

/-- A run goes through the state behind every earlier part. -/
theorem Run.split (hrun : Run step s (later ++ earlier) t) :
    ∃ u, Run step s earlier u ∧ Run step u later t := by
  induction later generalizing t with
  | nil => exact ⟨t, hrun, .nil⟩
  | cons e later ih =>
      cases hrun with
      | cons hrest hstep =>
          obtain ⟨u, hearlier, hlater⟩ := ih hrest
          exact ⟨u, hearlier, hlater.cons hstep⟩

/-- A run goes on behind another one. -/
theorem Run.append {u : State} (hrun : Run step s earlier t) (hlater : Run step t later u) :
    Run step s (later ++ earlier) u := by
  induction hlater with
  | nil => exact hrun
  | cons _ hstep ih => exact ih.cons hstep

/-- A machine that does for every step of the first one some steps of its own follows its
runs. -/
theorem Run.simulate {State' Input' Output' : Type*}
    {step' : State' → Input' → Option (State' × List Output')} (view : State → State')
    (expand : Event State Input Output → List (Event State' Input' Output'))
    {P : State → Prop} (hs : P s)
    (hstep : ∀ s i t outs, P s → step s i = some (t, outs) →
      P t ∧ Run step' (view s) (expand ⟨s, i, t, outs⟩) (view t))
    (hrun : Run step s events t) : P t ∧ Run step' (view s) (events.flatMap expand) (view t) := by
  induction hrun with
  | nil => exact ⟨hs, .nil⟩
  | cons _ h ih =>
      obtain ⟨hP, hexpand⟩ := hstep _ _ _ _ ih.1 h
      exact ⟨hP, ih.2.append hexpand⟩

/-- Every event of a run is a step from the state behind the events before it. -/
theorem Run.of_mem {e : Event State Input Output} (hrun : Run step s events t)
    (he : e ∈ events) :
    ∃ later earlier, events = later ++ e :: earlier ∧ Run step s earlier e.before ∧
      step e.before e.input = some (e.after, e.outputs) := by
  obtain ⟨later, earlier, rfl⟩ := List.append_of_mem he
  obtain ⟨u, hu, -⟩ := hrun.split
  cases hu with
  | cons hrest hstep => exact ⟨later, earlier, rfl, hrest, hstep⟩

/-- A property that a run has lost was lost at one of its events. -/
theorem Run.exists_lost {P : State → Prop} (hrun : Run step s events t) (hs : P s)
    (ht : ¬ P t) : ∃ e ∈ events, P e.before ∧ ¬ P e.after := by
  induction hrun with
  | nil => exact absurd hs ht
  | @cons events t i u outs hrun hstep ih =>
      by_cases hP : P t
      · exact ⟨_, List.mem_cons_self, hP, ht⟩
      · obtain ⟨e, he, hlost⟩ := ih hP
        exact ⟨e, List.mem_cons_of_mem _ he, hlost⟩

/-! ## Playing a run -/

/-- Go on from a run with these inputs, the oldest first. -/
def play (step : State → Input → Option (State × List Output)) :
    List (Event State Input Output) → State → List Input →
      Option (List (Event State Input Output) × State)
  | events, s, [] => some (events, s)
  | events, s, i :: is =>
      match step s i with
      | none => none
      | some (t, outs) => play step (⟨s, i, t, outs⟩ :: events) t is

theorem Run.play {is : List Input} {events' : List (Event State Input Output)} {u : State}
    (hrun : Run step s events t) (hplay : play step events t is = some (events', u)) :
    Run step s events' u := by
  induction is generalizing events t with
  | nil =>
      cases hplay
      exact hrun
  | cons i is ih =>
      rw [EventRuns.play] at hplay
      cases hstep : step t i with
      | none =>
          rw [hstep] at hplay
          cases hplay
      | some r =>
          rw [hstep] at hplay
          exact ih (hrun.cons hstep) hplay

/-- The inputs can be played: a run, and where it ends. -/
theorem run_of_isSome {is : List Input} (h : (play step [] s is).isSome = true) :
    Run step s ((play step [] s is).get h).1 ((play step [] s is).get h).2 :=
  Run.play .nil (Option.some_get h).symm

end EventRuns
