import Mathlib.Data.List.Basic

/-!
# Traces of stores

A program that fills a buffer is described by its trace: the list of its
stores, each an index and a value, in program order.  What the buffer holds
afterwards is the last store at each index.

Programs that append text often store more than they keep, such as the
terminator of a string, and overwrite it with what follows.  `Writer.Holds`
describes such a program by the text in front of its cursor and the rest behind
it.
-/

namespace StoreTrace

variable {α : Type*}

/-- Stores of consecutive values from index `p` on. -/
def stores (p : ℕ) : List α → List (ℕ × α)
  | [] => []
  | v :: vs => (p, v) :: stores (p + 1) vs

/-- What index `i` holds after the stores of a trace. -/
def contents (i : ℕ) : List (ℕ × α) → Option α
  | [] => none
  | (j, v) :: trace => (contents i trace).or (if j = i then some v else none)

/-- An index holds something exactly when the trace stores at it. -/
theorem contents_isSome_iff {i : ℕ} {trace : List (ℕ × α)} :
    (contents i trace).isSome ↔ ∃ v, (i, v) ∈ trace := by
  induction trace with
  | nil => simp [contents]
  | cons store trace ih =>
      obtain ⟨j, v⟩ := store
      rw [contents, Option.isSome_or, Bool.or_eq_true, ih]
      by_cases hj : j = i
      · subst hj
        simp only [if_true, Option.isSome_some, or_true, true_iff]
        exact ⟨v, List.mem_cons_self⟩
      · simp [hj, Ne.symm hj]

theorem contents_append (i : ℕ) (first last : List (ℕ × α)) :
    contents i (first ++ last) = (contents i last).or (contents i first) := by
  induction first with
  | nil => simp [contents]
  | cons store first ih =>
      rw [List.cons_append, contents, contents, ih, Option.or_assoc]

theorem contents_stores (i p : ℕ) (vs : List α) :
    contents i (stores p vs) = if p ≤ i then vs[i - p]? else none := by
  induction vs generalizing p with
  | nil => simp [stores, contents]
  | cons v vs ih =>
      rw [stores, contents, ih]
      by_cases hlt : p + 1 ≤ i
      · have hsub : i - p = i - (p + 1) + 1 := by omega
        rw [if_pos hlt, if_pos (show p ≤ i by omega), if_neg (show p ≠ i by omega),
          Option.or_none, hsub, List.getElem?_cons_succ]
      · by_cases hp : p = i
        · subst hp
          rw [if_neg hlt, if_pos rfl, if_pos (Nat.le_refl p), Nat.sub_self, List.getElem?_cons_zero]
          rfl
        · rw [if_neg hlt, if_neg hp, if_neg (show ¬ p ≤ i by omega)]
          rfl

theorem stores_append (p : ℕ) (vs ws : List α) :
    stores p (vs ++ ws) = stores p vs ++ stores (p + vs.length) ws := by
  induction vs generalizing p with
  | nil => rfl
  | cons v vs ih =>
      rw [List.cons_append, stores, ih, stores, List.length_cons, Nat.add_assoc, Nat.add_comm 1]
      rfl

/-- Every store of a trace stays in a buffer of `size` values. -/
def Within (size : ℕ) (trace : List (ℕ × α)) : Prop := ∀ store ∈ trace, store.1 < size

theorem within_append {size : ℕ} {first last : List (ℕ × α)} :
    Within size (first ++ last) ↔ Within size first ∧ Within size last :=
  List.forall_mem_append

theorem within_stores {size p : ℕ} {vs : List α} (hne : vs ≠ []) :
    Within size (stores p vs) ↔ p + vs.length ≤ size := by
  induction vs generalizing p with
  | nil => exact absurd rfl hne
  | cons v vs ih =>
      rw [Within, stores, List.forall_mem_cons, List.length_cons]
      cases vs with
      | nil =>
          simp only [stores, List.not_mem_nil, false_implies, implies_true, and_true,
            List.length_nil]
          omega
      | cons w ws =>
          have hrest := ih (p := p + 1) (List.cons_ne_nil w ws)
          rw [Within] at hrest
          rw [hrest]
          omega

/-- The `n` values from index `p` on, `none` when one of them was never
stored. -/
def load (trace : List (ℕ × α)) (p : ℕ) : ℕ → Option (List α)
  | 0 => some []
  | n + 1 => do
      let v ← contents p trace
      let vs ← load trace (p + 1) n
      return v :: vs

theorem load_eq {trace : List (ℕ × α)} {text : List α} {p : ℕ}
    (h : ∀ i < text.length, contents (p + i) trace = text[i]?) :
    load trace p text.length = some text := by
  induction text generalizing p with
  | nil => rfl
  | cons v text ih =>
      have hfirst := h 0 (Nat.succ_pos _)
      have hrest : load trace (p + 1) text.length = some text := by
        apply ih
        intro i hi
        have := h (i + 1) (Nat.succ_lt_succ hi)
        rwa [← Nat.add_assoc, Nat.add_right_comm, List.getElem?_cons_succ] at this
      rw [Nat.add_zero, List.getElem?_cons_zero] at hfirst
      rw [List.length_cons, load, hfirst, hrest]
      rfl

/-! ## A program with a cursor -/

/-- A program between two writes: its cursor and the stores so far. -/
structure Writer (α : Type*) where
  p : ℕ
  trace : List (ℕ × α)

namespace Writer

/-- Store `vs` at the cursor, and move the cursor by `n`. -/
def put (w : Writer α) (vs : List α) (n : ℕ) : Writer α :=
  ⟨w.p + n, w.trace ++ stores w.p vs⟩

/-- The buffer holds `text` in front of the cursor and `rest` from it on, and
nothing has been stored behind that. -/
structure Holds (w : Writer α) (text rest : List α) : Prop where
  cursor : w.p = text.length
  memory : ∀ i, contents i w.trace = (text ++ rest)[i]?

theorem holds_start : Holds (⟨0, []⟩ : Writer α) [] [] where
  cursor := rfl
  memory i := by simp [contents]

/-- A write replaces as much of the rest as it stores; the cursor moves over
`new`, the part of it that stays. -/
theorem Holds.put {w : Writer α} {text rest : List α} (h : w.Holds text rest)
    (new spare : List α) :
    (w.put (new ++ spare) new.length).Holds (text ++ new)
      (spare ++ rest.drop (new ++ spare).length) where
  cursor := by rw [Writer.put, List.length_append, h.cursor]
  memory i := by
    have htext : text ++ new ++ (spare ++ rest.drop (new ++ spare).length) =
        text ++ ((new ++ spare) ++ rest.drop (new ++ spare).length) := by
      simp only [List.append_assoc]
    rw [htext, Writer.put, contents_append, contents_stores, h.memory, h.cursor]
    by_cases hfront : i < text.length
    · rw [if_neg (show ¬ text.length ≤ i by omega), List.getElem?_append_left hfront,
        List.getElem?_append_left hfront]
      rfl
    · have hback : text.length ≤ i := by omega
      rw [if_pos hback, List.getElem?_append_right hback, List.getElem?_append_right hback]
      by_cases hnew : i - text.length < (new ++ spare).length
      · rw [List.getElem?_append_left hnew, List.getElem?_eq_getElem hnew]
        rfl
      · have hspare : (new ++ spare).length ≤ i - text.length := by omega
        rw [List.getElem?_append_right hspare, List.getElem?_drop,
          List.getElem?_eq_none hspare, Nat.add_sub_cancel' hspare]
        rfl

end Writer

end StoreTrace
