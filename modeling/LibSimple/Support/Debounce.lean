import Mathlib.Data.List.Basic

/-!
# Debouncing

A debounced signal follows the last run of `n` equal samples.  Here samples are listed
with the newest one first.  `output` says what the signal is, from the list alone; the
samples at the front that differ from it are `pending`, and they are what a debouncing
program has to count.
-/

namespace Debounce

/-- The kind of the most recent `n` equal samples in a row, if there were any yet. -/
def recentRun {α : Type*} [DecidableEq α] (n : ℕ) : List α → Option α
  | [] => none
  | x :: older =>
      if List.replicate n x <+: x :: older then some x else recentRun n older

/-- The debounced signal, which starts as `false`. -/
def output (n : ℕ) (samples : List Bool) : Bool := (recentRun n samples).getD false

/-- How many of the newest samples differ from the signal. -/
def pending (n : ℕ) (samples : List Bool) : ℕ :=
  (samples.takeWhile fun x => x != output n samples).length

theorem replicate_isPrefix_iff {x : Bool} {m : ℕ} {samples : List Bool} :
    List.replicate m x <+: samples ↔ m ≤ (samples.takeWhile fun y => y != !x).length := by
  induction samples generalizing m with
  | nil =>
      rw [List.prefix_nil, List.replicate_eq_nil_iff, List.takeWhile_nil, List.length_nil,
        Nat.le_zero]
  | cons y samples ih =>
      cases m with
      | zero => exact iff_of_true (List.nil_prefix) (Nat.zero_le _)
      | succ m =>
          rw [List.replicate_succ, List.cons_prefix_cons, ih]
          by_cases hy : x = y
          · subst hy
            rw [List.takeWhile_cons_of_pos (by cases x <;> rfl), List.length_cons,
              and_iff_right rfl, Nat.succ_le_succ_iff]
          · rw [List.takeWhile_cons_of_neg (by cases x <;> cases y <;> simp_all)]
            exact iff_of_false (fun h => hy h.1) (by simp)

variable {n : ℕ} {x : Bool} {samples : List Bool}

/-- A sample that agrees with the signal leaves it as it is. -/
theorem output_cons_of_eq (hx : x = output n samples) : output n (x :: samples) = x := by
  rw [output, recentRun]
  split_ifs
  · rfl
  · exact hx.symm

/-- A sample that differs from the signal changes it when it completes a run. -/
theorem output_cons_of_ne (hn : 0 < n) (hx : x ≠ output n samples) :
    output n (x :: samples) =
      if pending n samples + 1 < n then output n samples else x := by
  obtain ⟨m, rfl⟩ : ∃ m, n = m + 1 := ⟨n - 1, by omega⟩
  have hnot : (!x) = output (m + 1) samples := by
    cases x <;> cases h : output (m + 1) samples <;> simp_all
  have hfront : List.replicate (m + 1) x <+: x :: samples ↔ m ≤ pending (m + 1) samples := by
    rw [List.replicate_succ, List.cons_prefix_cons, and_iff_right rfl, replicate_isPrefix_iff,
      hnot, pending]
  rw [output, recentRun]
  by_cases hrun : m ≤ pending (m + 1) samples
  · rw [if_pos (hfront.mpr hrun), if_neg (by omega)]
    rfl
  · rw [if_neg fun h => hrun (hfront.mp h), if_pos (by omega)]
    rfl

theorem pending_cons_of_eq (hx : x = output n (x :: samples)) : pending n (x :: samples) = 0 := by
  rw [pending, ← hx, List.takeWhile_cons_of_neg (by simp), List.length_nil]

theorem pending_cons_of_ne (hx : x ≠ output n (x :: samples))
    (hsame : output n (x :: samples) = output n samples) :
    pending n (x :: samples) = pending n samples + 1 := by
  rw [pending, List.takeWhile_cons_of_pos (by simpa using hx), List.length_cons, hsame]
  rfl

/-- What one more sample does to the signal and the number of pending samples. -/
theorem output_pending_cons (hn : 0 < n) (x : Bool) (samples : List Bool) :
    (output n (x :: samples), pending n (x :: samples)) =
      if x = output n samples then (output n samples, 0)
      else if pending n samples + 1 < n then (output n samples, pending n samples + 1)
      else (x, 0) := by
  split_ifs with hx hlt
  · have hout := output_cons_of_eq hx
    rw [pending_cons_of_eq hout.symm, hout, hx]
  · have hout : output n (x :: samples) = output n samples := by
      rw [output_cons_of_ne hn hx, if_pos hlt]
    rw [pending_cons_of_ne (by rwa [hout]) hout, hout]
  · have hout : output n (x :: samples) = x := by
      rw [output_cons_of_ne hn hx, if_neg hlt]
    rw [pending_cons_of_eq hout.symm, hout]

/-- The pending samples are too few for a run. -/
theorem pending_lt (hn : 0 < n) (samples : List Bool) : pending n samples < n := by
  induction samples with
  | nil => exact hn
  | cons x samples ih =>
      show (output n (x :: samples), pending n (x :: samples)).2 < n
      rw [output_pending_cons hn]
      split_ifs with hx hlt
      · exact hn
      · exact hlt
      · exact hn

/-- A newest sample that differs from the signal has not changed it. -/
theorem output_eq_of_ne (hn : 0 < n) (hx : x ≠ output n (x :: samples)) :
    output n (x :: samples) = output n samples ∧ x ≠ output n samples := by
  by_cases heq : x = output n samples
  · exact absurd (output_cons_of_eq heq).symm hx
  · have hout := output_cons_of_ne hn heq
    split_ifs at hout with hlt
    · exact ⟨hout, heq⟩
    · exact absurd hout.symm hx

/-- Something is pending exactly when the newest sample differs from the signal. -/
theorem pending_pos_iff : 0 < pending n (x :: samples) ↔ x ≠ output n (x :: samples) := by
  by_cases hx : x = output n (x :: samples)
  · rw [pending_cons_of_eq hx]
    exact iff_of_false (Nat.lt_irrefl 0) fun hne => hne hx
  · rw [pending, List.takeWhile_cons_of_pos (by simpa using hx), List.length_cons]
    exact iff_of_true (Nat.succ_pos _) hx

end Debounce
