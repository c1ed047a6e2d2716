import Mathlib.Data.List.Basic
import Mathlib.Logic.Relation

/-!
# A server of one call at a time

What a server does for its callers when it takes up one call after another: a
call is accepted, its request is obtained, it is replied to and it returns, and
only then is the next call accepted.
-/

namespace SerialServer

variable {Caller Req Rpl : Type*}

/-- How far the call under way has come. -/
inductive Stage (Caller Req Rpl : Type*)
  | free
  | accepted (k : Caller) (r : Req)
  | obtained (k : Caller) (r : Req)
  | replied (k : Caller) (r : Req) (v : Rpl)

/-- The calls that have returned, and the call under way. -/
structure State (Caller Req Rpl : Type*) where
  completed : List (Caller × Req × Rpl)
  stage : Stage Caller Req Rpl

inductive Step : State Caller Req Rpl → State Caller Req Rpl → Prop
  | accept {cs} (k : Caller) (r : Req) : Step ⟨cs, .free⟩ ⟨cs, .accepted k r⟩
  | obtain {cs k r} : Step ⟨cs, .accepted k r⟩ ⟨cs, .obtained k r⟩
  | reply {cs k r} (v : Rpl) : Step ⟨cs, .obtained k r⟩ ⟨cs, .replied k r v⟩
  | complete {cs k r v} : Step ⟨cs, .replied k r v⟩ ⟨cs ++ [(k, r, v)], .free⟩

/-- A record of the events, each kind in the order in which they happened. -/
@[ext]
structure Log (Caller Req Rpl : Type*) where
  accepted : List (Caller × Req)
  obtained : List Req
  replied : List (Req × Rpl)
  returned : List (Caller × Req × Rpl)

/-- The record of what has happened up to a state. -/
def State.log : State Caller Req Rpl → Log Caller Req Rpl
  | ⟨cs, stage⟩ =>
      let past : Log Caller Req Rpl :=
        ⟨cs.map fun c => (c.1, c.2.1), cs.map fun c => c.2.1, cs.map Prod.snd, cs⟩
      match stage with
      | .free => past
      | .accepted k r => { past with accepted := past.accepted ++ [(k, r)] }
      | .obtained k r =>
          { past with
            accepted := past.accepted ++ [(k, r)]
            obtained := past.obtained ++ [r] }
      | .replied k r v =>
          { past with
            accepted := past.accepted ++ [(k, r)]
            obtained := past.obtained ++ [r]
            replied := past.replied ++ [(r, v)] }

variable {cs : List (Caller × Req × Rpl)} {k : Caller} {r : Req} {v : Rpl}

theorem log_accepted :
    State.log ⟨cs, .accepted k r⟩ =
      { State.log ⟨cs, .free⟩ with accepted := (State.log ⟨cs, .free⟩).accepted ++ [(k, r)] } :=
  rfl

theorem log_obtained :
    State.log ⟨cs, .obtained k r⟩ =
      { State.log ⟨cs, .accepted k r⟩ with
        obtained := (State.log ⟨cs, .accepted k r⟩).obtained ++ [r] } :=
  rfl

theorem log_replied :
    State.log ⟨cs, .replied k r v⟩ =
      { State.log ⟨cs, .obtained k r⟩ with
        replied := (State.log ⟨cs, .obtained k r⟩).replied ++ [(r, v)] } :=
  rfl

theorem log_completed :
    State.log ⟨cs ++ [(k, r, v)], .free⟩ =
      { State.log ⟨cs, .replied k r v⟩ with
        returned := (State.log ⟨cs, .replied k r v⟩).returned ++ [(k, r, v)] } := by
  simp only [State.log, List.map_append, List.map_cons, List.map_nil]

/-- Requests are obtained in the order in which calls are accepted. -/
theorem obtained_order (a : State Caller Req Rpl) :
    a.log.obtained <+: a.log.accepted.map Prod.snd := by
  obtain ⟨cs, stage⟩ := a
  cases stage with
  | free => exact ⟨[], by simp [State.log, Function.comp_def]⟩
  | accepted k r => exact ⟨[r], by simp [State.log, Function.comp_def]⟩
  | obtained k r => exact ⟨[], by simp [State.log, Function.comp_def]⟩
  | replied k r v => exact ⟨[], by simp [State.log, Function.comp_def]⟩

/-- The replies answer the requests in the order in which these are obtained. -/
theorem replied_order (a : State Caller Req Rpl) :
    a.log.replied.map Prod.fst <+: a.log.obtained := by
  obtain ⟨cs, stage⟩ := a
  cases stage with
  | free => exact ⟨[], by simp [State.log, Function.comp_def]⟩
  | accepted k r => exact ⟨[], by simp [State.log, Function.comp_def]⟩
  | obtained k r => exact ⟨[r], by simp [State.log, Function.comp_def]⟩
  | replied k r v => exact ⟨[], by simp [State.log, Function.comp_def]⟩

/-- Reading the part of a log that comes from the calls that have returned. -/
theorem getElem?_map_append {α β : Type*} {cs : List α} {c : α} {i : ℕ} (h : cs[i]? = some c)
    (f : α → β) (l : List β) : (cs.map f ++ l)[i]? = some (f c) := by
  have hi : i < cs.length := (List.getElem?_eq_some_iff.mp h).choose
  rw [List.getElem?_append_left (by rwa [List.length_map]), List.getElem?_map, h]
  rfl

/-- The call that returns in place `i` was accepted in place `i`, its request was
obtained in place `i`, and it returns what the reply in place `i` gave to this
request. -/
theorem returned_getElem? (a : State Caller Req Rpl) {i : ℕ}
    (h : a.log.returned[i]? = some (k, r, v)) :
    a.log.accepted[i]? = some (k, r) ∧ a.log.obtained[i]? = some r ∧
      a.log.replied[i]? = some (r, v) := by
  obtain ⟨cs, stage⟩ := a
  have hcs : cs[i]? = some (k, r, v) := by
    cases stage <;> exact h
  cases stage <;> simp [State.log, getElem?_map_append hcs, hcs]

end SerialServer
