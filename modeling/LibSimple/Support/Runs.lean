import Mathlib.Logic.Function.Basic
import Mathlib.Data.List.Basic

/-!
# Runs of machines with errors

A machine consumes one input symbol at a time and either moves to a next state
or stops with an error.  A run over a list of symbols is `List.foldlM`; this
module gives the rules by which facts about one step become facts about a run:
an invariant rule, and a rule that reduces the absence of errors to one step.
-/

namespace Runs

/-! ## Computations that may fail -/

section Fallible

universe u

variable {Error : Type*} {α β : Type u}

@[simp] theorem pure_eq_ok (a : α) : (pure a : Except Error α) = .ok a := rfl

@[simp] theorem throw_eq_error (e : Error) : (throw e : Except Error α) = .error e := rfl

@[simp] theorem ok_bind (a : α) (f : α → Except Error β) : (Except.ok a >>= f) = f a := rfl

@[simp] theorem error_bind (e : Error) (f : α → Except Error β) :
    ((Except.error e : Except Error α) >>= f) = .error e := rfl

@[simp] theorem map_ok (f : α → β) (a : α) :
    (f <$> (Except.ok a : Except Error α)) = .ok (f a) := rfl

@[simp] theorem map_error (f : α → β) (e : Error) :
    (f <$> (Except.error e : Except Error α)) = .error e := rfl

theorem bind_eq_ok {x : Except Error α} {f : α → Except Error β} {b : β} :
    (x >>= f) = .ok b ↔ ∃ a, x = .ok a ∧ f a = .ok b := by
  cases x with
  | error e => simp
  | ok a => simp

theorem map_eq_ok {x : Except Error α} {f : α → β} {b : β} :
    f <$> x = .ok b ↔ ∃ a, x = .ok a ∧ f a = b := by
  cases x with
  | error e => simp
  | ok a => simp

/-- A computation fails when what follows its first part always does. -/
theorem bind_fails_of_ok {x : Except Error α} {f : α → Except Error β}
    (h : ∀ a, x = .ok a → ∃ e, f a = .error e) : ∃ e, (x >>= f) = .error e := by
  cases x with
  | error e => exact ⟨e, rfl⟩
  | ok a => exact h a rfl

/-- Every error of the computation is one of `F`. -/
def FailsIn (F : Error → Prop) (x : Except Error α) : Prop := ∀ e, x = .error e → F e

namespace FailsIn

variable {F : Error → Prop}

theorem ok (a : α) : FailsIn F (.ok a) := by
  intro e h
  cases h

theorem error {e : Error} (h : F e) : FailsIn F (.error e : Except Error α) := by
  intro e' h'
  cases h'
  exact h

theorem bind {x : Except Error α} {f : α → Except Error β} (hx : FailsIn F x)
    (hf : ∀ a, FailsIn F (f a)) : FailsIn F (x >>= f) := by
  intro e h
  cases x with
  | error e' =>
      cases h
      exact hx e rfl
  | ok a => exact hf a e h

theorem map {x : Except Error α} (hx : FailsIn F x) (f : α → β) : FailsIn F (f <$> x) := by
  intro e h
  cases x with
  | error e' =>
      cases h
      exact hx e rfl
  | ok a => cases h

end FailsIn

/-- Every result of the computation has the property. -/
def Yields (P : α → Prop) (x : Except Error α) : Prop := ∀ a, x = .ok a → P a

namespace Yields

variable {P : α → Prop} {Q : β → Prop}

theorem ok {a : α} (h : P a) : Yields P (.ok a : Except Error α) := by
  intro a' h'
  cases h'
  exact h

theorem error (e : Error) : Yields P (.error e) := by
  intro a h
  cases h

theorem bind {x : Except Error α} {f : α → Except Error β} (hx : Yields P x)
    (hf : ∀ a, P a → Yields Q (f a)) : Yields Q (x >>= f) := by
  intro b h
  obtain ⟨a, ha, hb⟩ := bind_eq_ok.mp h
  exact hf a (hx a ha) b hb

end Yields

end Fallible

/-! ## Runs -/

variable {State Symbol Error : Type*}

/-- Feed the symbols to the machine one after another. -/
def run (step : Symbol → State → Except Error State)
    (s : State) (xs : List Symbol) : Except Error State :=
  xs.foldlM (fun s x => step x s) s

variable {step : Symbol → State → Except Error State}

@[simp] theorem run_nil (s : State) : run step s [] = .ok s := rfl

theorem run_cons (s : State) (x : Symbol) (xs : List Symbol) :
    run step s (x :: xs) = step x s >>= fun s' => run step s' xs := rfl

theorem run_cons_ok {s s' : State} {x : Symbol} (h : step x s = .ok s')
    (xs : List Symbol) : run step s (x :: xs) = run step s' xs := by
  rw [run_cons, h, ok_bind]

theorem run_append (s : State) (xs ys : List Symbol) :
    run step s (xs ++ ys) = run step s xs >>= fun s' => run step s' ys := by
  exact List.foldlM_append

theorem run_append_ok {s s' : State} {xs : List Symbol}
    (h : run step s xs = .ok s') (ys : List Symbol) :
    run step s (xs ++ ys) = run step s' ys := by
  rw [run_append, h, ok_bind]

/-- A run that succeeds passes through the state after every prefix. -/
theorem run_append_eq_ok {s t : State} {xs ys : List Symbol}
    (h : run step s (xs ++ ys) = .ok t) :
    ∃ s', run step s xs = .ok s' ∧ run step s' ys = .ok t := by
  rw [run_append] at h
  exact bind_eq_ok.mp h

theorem run_cons_eq_ok {s t : State} {x : Symbol} {xs : List Symbol}
    (h : run step s (x :: xs) = .ok t) :
    ∃ s', step x s = .ok s' ∧ run step s' xs = .ok t := by
  rw [run_cons] at h
  exact bind_eq_ok.mp h

theorem run_concat_eq_ok {s t : State} {x : Symbol} {xs : List Symbol}
    (h : run step s (xs ++ [x]) = .ok t) :
    ∃ s', run step s xs = .ok s' ∧ step x s' = .ok t := by
  obtain ⟨s', hxs, hlast⟩ := run_append_eq_ok h
  obtain ⟨t', hx, hnil⟩ := run_cons_eq_ok hlast
  cases hnil
  exact ⟨s', hxs, hx⟩

/-- What holds at the start and is kept by every step holds at the end. -/
theorem run_invariant {P : State → Prop} {s t : State} {xs : List Symbol}
    (hstep : ∀ x s s', P s → step x s = .ok s' → P s')
    (hs : P s) (h : run step s xs = .ok t) : P t := by
  induction xs generalizing s with
  | nil =>
      cases h
      exact hs
  | cons x xs ih =>
      obtain ⟨s', hx, hxs⟩ := run_cons_eq_ok h
      exact ih (hstep x s s' hs hx) hxs

/-- A run succeeds exactly when no step on its way fails. -/
theorem run_isOk_iff {s : State} {xs : List Symbol} :
    (∃ t, run step s xs = .ok t) ↔
      ∀ pre x post s', xs = pre ++ x :: post → run step s pre = .ok s' →
        ∃ t, step x s' = .ok t := by
  constructor
  · rintro ⟨t, ht⟩ pre x post s' rfl hpre
    rw [run_append_ok hpre] at ht
    obtain ⟨s'', hx, -⟩ := run_cons_eq_ok ht
    exact ⟨s'', hx⟩
  · intro hall
    induction xs generalizing s with
    | nil => exact ⟨s, rfl⟩
    | cons x xs ih =>
        obtain ⟨s', hs'⟩ := hall [] x xs s rfl rfl
        obtain ⟨t, ht⟩ := ih (s := s') fun pre y post u hxs hpre =>
          hall (x :: pre) y post u (by rw [hxs]; rfl) (by rw [run_cons_ok hs', hpre])
        exact ⟨t, by rw [run_cons_ok hs', ht]⟩

/-! ## Conditions on the steps of a run -/

/-- Every step of the run over `xs` that succeeds meets `C`. -/
def Along (step : Symbol → State → Except Error State) (C : Symbol → State → State → Prop)
    (s : State) (xs : List Symbol) : Prop :=
  ∀ pre x post s' t, xs = pre ++ x :: post → run step s pre = .ok s' → step x s' = .ok t →
    C x s' t

section Along

variable {C D : Symbol → State → State → Prop} {s : State}

theorem along_nil : Along step C s [] := by
  intro pre x post s' t hxs
  simp at hxs

theorem along_cons {x : Symbol} {xs : List Symbol} :
    Along step C s (x :: xs) ↔ ∀ t, step x s = .ok t → C x s t ∧ Along step C t xs := by
  constructor
  · intro h t ht
    refine ⟨h [] x xs s t rfl rfl ht, ?_⟩
    intro pre y post s' u hxs hpre hu
    exact h (x :: pre) y post s' u (by rw [hxs]; rfl) (by rw [run_cons_ok ht, hpre]) hu
  · intro h pre y post s' u hxs hpre hu
    cases pre with
    | nil =>
        cases hxs
        cases hpre
        exact (h u hu).1
    | cons z pre =>
        cases hxs
        obtain ⟨t, ht, hpre⟩ := run_cons_eq_ok hpre
        exact (h t ht).2 pre y post s' u rfl hpre hu

theorem Along.left {xs ys : List Symbol} (h : Along step C s (xs ++ ys)) :
    Along step C s xs := by
  rintro pre x post s' t rfl hpre ht
  exact h pre x (post ++ ys) s' t (by simp) hpre ht

theorem Along.right {xs ys : List Symbol} {s' : State} (h : Along step C s (xs ++ ys))
    (hxs : run step s xs = .ok s') : Along step C s' ys := by
  rintro pre x post u t rfl hpre ht
  exact h (xs ++ pre) x post u t (by simp) (by rw [run_append_ok hxs, hpre]) ht

/-- An invariant that the steps meeting `C` keep holds along a run of such
steps. -/
theorem run_invariant_along {I : State → Prop} {t : State} {xs : List Symbol}
    (hstep : ∀ x s t, I s → C x s t → step x s = .ok t → I t)
    (hs : I s) (hC : Along step C s xs) (h : run step s xs = .ok t) : I t := by
  induction xs generalizing s with
  | nil =>
      cases h
      exact hs
  | cons x xs ih =>
      obtain ⟨s', hx, hxs⟩ := run_cons_eq_ok h
      obtain ⟨hCx, hrest⟩ := along_cons.mp hC s' hx
      exact ih (hstep x s s' hs hCx hx) hrest hxs

/-- Two conditions that agree under an invariant, which the second one keeps,
hold along the same runs. -/
theorem along_iff_along {I : State → Prop}
    (hiff : ∀ x s t, I s → step x s = .ok t → (D x s t ↔ C x s t))
    (hstep : ∀ x s t, I s → C x s t → step x s = .ok t → I t)
    (hs : I s) (xs : List Symbol) : Along step D s xs ↔ Along step C s xs := by
  induction xs generalizing s with
  | nil => exact iff_of_true along_nil along_nil
  | cons x xs ih =>
      rw [along_cons, along_cons]
      refine forall_congr' fun t => forall_congr' fun ht => ?_
      rw [hiff x s t hs ht]
      refine and_congr_right fun hCx => ?_
      exact ih (hstep x s t hs hCx ht)

/-- A fact about every state that a run passes through is a fact about its
first state and every step. -/
theorem forall_reached_iff {P : State → Prop} {xs : List Symbol} :
    (∀ pre t, pre <+: xs → run step s pre = .ok t → P t) ↔
      P s ∧ Along step (fun _ _ t => P t) s xs := by
  constructor
  · intro h
    refine ⟨h [] s List.nil_prefix rfl, ?_⟩
    rintro pre x post s' t rfl hpre ht
    refine h (pre ++ [x]) t ⟨post, by simp⟩ ?_
    rw [run_append_ok hpre, run_cons_ok ht, run_nil]
  · rintro ⟨hs, h⟩ pre t ⟨post, rfl⟩ ht
    rcases List.eq_nil_or_concat pre with rfl | ⟨pre, x, rfl⟩
    · cases ht
      exact hs
    · rw [List.concat_eq_append] at ht
      obtain ⟨s', hpre, hx⟩ := run_concat_eq_ok ht
      exact h pre x post s' t (by simp) hpre hx

end Along

/-! ## Runs without errors -/

/-- The run over `xs` succeeds, and every state on its way has the property. -/
def Throughout (step : Symbol → State → Except Error State) (P : State → Prop) (s : State)
    (xs : List Symbol) : Prop :=
  ∀ pre, pre <+: xs → ∃ t, run step s pre = .ok t ∧ P t

/-- Every symbol of `xs` meets the condition in the state that it comes in. -/
def Meets (step : Symbol → State → Except Error State) (C : Symbol → State → Prop) (s : State)
    (xs : List Symbol) : Prop :=
  ∀ pre x post s', xs = pre ++ x :: post → run step s pre = .ok s' → C x s'

section Throughout

variable {P : State → Prop} {C : Symbol → State → Prop} {s : State}

theorem throughout_nil : Throughout step P s [] ↔ P s := by
  constructor
  · intro h
    obtain ⟨t, ht, hP⟩ := h [] List.nil_prefix
    cases ht
    exact hP
  · intro hs pre hpre
    rw [List.prefix_nil.mp hpre]
    exact ⟨s, rfl, hs⟩

theorem throughout_cons {x : Symbol} {xs : List Symbol} :
    Throughout step P s (x :: xs) ↔ P s ∧ ∃ t, step x s = .ok t ∧ Throughout step P t xs := by
  constructor
  · intro h
    obtain ⟨s', hs', hP⟩ := h [] List.nil_prefix
    cases hs'
    obtain ⟨t, ht, -⟩ := h [x] (List.cons_prefix_cons.mpr ⟨rfl, List.nil_prefix⟩)
    obtain ⟨t', hx, hnil⟩ := run_cons_eq_ok ht
    obtain rfl : t' = t := Except.ok.inj hnil
    refine ⟨hP, t', hx, fun pre hpre => ?_⟩
    obtain ⟨u, hu, hPu⟩ := h (x :: pre) (List.cons_prefix_cons.mpr ⟨rfl, hpre⟩)
    rw [run_cons_ok hx] at hu
    exact ⟨u, hu, hPu⟩
  · rintro ⟨hs, t, ht, h⟩ pre hpre
    cases pre with
    | nil => exact ⟨s, rfl, hs⟩
    | cons y pre =>
        obtain ⟨rfl, hrest⟩ := List.cons_prefix_cons.mp hpre
        obtain ⟨u, hu, hPu⟩ := h pre hrest
        exact ⟨u, by rw [run_cons_ok ht, hu], hPu⟩

theorem meets_nil : Meets step C s [] := by
  intro pre x post s' hxs
  simp at hxs

theorem meets_cons {x : Symbol} {xs : List Symbol} :
    Meets step C s (x :: xs) ↔ C x s ∧ ∀ t, step x s = .ok t → Meets step C t xs := by
  constructor
  · intro h
    refine ⟨h [] x xs s rfl rfl, ?_⟩
    rintro t ht pre y post u rfl hpre
    exact h (x :: pre) y post u rfl (by rw [run_cons_ok ht, hpre])
  · rintro ⟨hx, h⟩ pre y post u hxs hpre
    cases pre with
    | nil =>
        cases hxs
        cases hpre
        exact hx
    | cons z pre =>
        cases hxs
        obtain ⟨t, ht, hpre⟩ := run_cons_eq_ok hpre
        exact h t ht pre y post u rfl hpre

/-- A run keeps a property without an error exactly when its symbols meet the
condition under which one step does, if such steps keep an invariant with that
property. -/
theorem throughout_iff {I : State → Prop} (hI : ∀ s, I s → P s)
    (hiff : ∀ x s, I s → ((∃ t, step x s = .ok t ∧ P t) ↔ C x s))
    (hstep : ∀ x s t, I s → C x s → step x s = .ok t → I t) (hs : I s) (xs : List Symbol) :
    Throughout step P s xs ↔ Meets step C s xs := by
  induction xs generalizing s with
  | nil => exact iff_of_true (throughout_nil.mpr (hI s hs)) meets_nil
  | cons x xs ih =>
      rw [throughout_cons, meets_cons, ← hiff x s hs]
      constructor
      · rintro ⟨-, t, ht, hrest⟩
        have hPt : P t := by
          cases xs with
          | nil => exact throughout_nil.mp hrest
          | cons y ys => exact (throughout_cons.mp hrest).1
        have hC := (hiff x s hs).mp ⟨t, ht, hPt⟩
        refine ⟨⟨t, ht, hPt⟩, fun u hu => ?_⟩
        rw [ht, Except.ok.injEq] at hu
        exact hu ▸ (ih (hstep x s t hs hC ht)).mp hrest
      · rintro ⟨⟨t, ht, hPt⟩, hrest⟩
        have hC := (hiff x s hs).mp ⟨t, ht, hPt⟩
        exact ⟨hI s hs, t, ht, (ih (hstep x s t hs hC ht)).mpr (hrest t ht)⟩

end Throughout

/-! ## Outcomes -/

/-- The run over `xs` succeeds exactly under the condition `C`, and then it ends
in a state with `Q`. -/
structure Outcome (step : Symbol → State → Except Error State) (s : State)
    (xs : List Symbol) (C : Prop) (Q : State → Prop) : Prop where
  isOk_iff : (∃ t, run step s xs = .ok t) ↔ C
  post : ∀ t, run step s xs = .ok t → Q t

namespace Outcome

variable {s : State} {xs ys : List Symbol} {C D : Prop} {Q R : State → Prop}

theorem nil (hs : Q s) : Outcome step s [] True Q where
  isOk_iff := iff_of_true ⟨s, rfl⟩ trivial
  post := fun _ ht => Except.ok.inj ht ▸ hs

theorem single {x : Symbol} (hok : (∃ t, step x s = .ok t) ↔ C)
    (hpost : ∀ t, step x s = .ok t → Q t) : Outcome step s [x] C Q := by
  have hrun : run step s [x] = step x s := by
    rw [run_cons]
    cases step x s with
    | error e => rfl
    | ok t => rfl
  exact ⟨by rw [hrun, hok], fun t ht => hpost t (hrun ▸ ht)⟩

theorem congr (h : Outcome step s xs C Q) (hC : C ↔ D) (hQ : ∀ t, Q t → R t) :
    Outcome step s xs D R where
  isOk_iff := h.isOk_iff.trans hC
  post := fun t ht => hQ t (h.post t ht)

/-- Outcomes compose when the second condition depends on the first state
only. -/
theorem append (h : Outcome step s xs C Q) (h' : ∀ t, Q t → Outcome step t ys D R) :
    Outcome step s (xs ++ ys) (C ∧ D) R where
  isOk_iff := by
    constructor
    · rintro ⟨u, hu⟩
      obtain ⟨t, ht, hu⟩ := run_append_eq_ok hu
      exact ⟨h.isOk_iff.mp ⟨t, ht⟩, (h' t (h.post t ht)).isOk_iff.mp ⟨u, hu⟩⟩
    · rintro ⟨hC, hD⟩
      obtain ⟨t, ht⟩ := h.isOk_iff.mpr hC
      obtain ⟨u, hu⟩ := (h' t (h.post t ht)).isOk_iff.mpr hD
      exact ⟨u, by rw [run_append_ok ht, hu]⟩
  post := fun u hu => by
    obtain ⟨t, ht, hu⟩ := run_append_eq_ok hu
    exact (h' t (h.post t ht)).post u hu

end Outcome

end Runs
