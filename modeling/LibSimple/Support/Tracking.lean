import Mathlib.Data.Int.ConditionallyCompleteOrder
import Mathlib.Order.ConditionallyCompleteLattice.Basic
import Mathlib.Order.Monotone.Basic
import Mathlib.Logic.Function.Iterate

/-!
# Following a value through overlapping segments

Segments `[left i, right i]` of an ordered type, numbered by the integers from `0` to
below `n`.  A tracker that stands at a segment moves to a neighbour when the value that
it follows is outside of the segment, and stays where it is otherwise.

The tracker stays among the segments when the value is not in front of the first one
and not behind the last one.  When neighbours overlap, it never turns round, and reaches
a segment that has the value in it.
-/

namespace Tracking

variable {α : Type*} [LinearOrder α]

/-- One step of the tracker at segment `i`. -/
def follow (left right : ℤ → α) (x : α) (i : ℤ) : ℤ :=
  if x < left i then i - 1 else if right i < x then i + 1 else i

variable {left right : ℤ → α} {x : α} {i n : ℤ}

theorem follow_of_lt (h : x < left i) : follow left right x i = i - 1 := if_pos h

theorem follow_of_gt (hleft : left i ≤ x) (hright : right i < x) :
    follow left right x i = i + 1 := by
  rw [follow, if_neg (not_lt.mpr hleft), if_pos hright]

theorem follow_of_mem (hleft : left i ≤ x) (hright : x ≤ right i) :
    follow left right x i = i := by
  rw [follow, if_neg (not_lt.mpr hleft), if_neg (not_lt.mpr hright)]

/-- The value is between the first segment and the last one. -/
structure Between (left right : ℤ → α) (n : ℤ) (x : α) : Prop where
  first : left 0 ≤ x
  last : x ≤ right (n - 1)

/-- The tracker does not leave the segments. -/
theorem Between.follow_mem (h : Between left right n x) (hlo : 0 ≤ i) (hhi : i < n) :
    0 ≤ follow left right x i ∧ follow left right x i < n := by
  rcases lt_or_ge x (left i) with hleft | hleft
  · have hne : i ≠ 0 := by
      rintro rfl
      exact absurd hleft (not_lt.mpr h.first)
    rw [follow_of_lt hleft]
    omega
  · rcases lt_or_ge (right i) x with hright | hright
    · have hne : i ≠ n - 1 := by
        rintro rfl
        exact absurd hright (not_lt.mpr h.last)
      rw [follow_of_gt hleft hright]
      omega
    · rw [follow_of_mem hleft hright]
      exact ⟨hlo, hhi⟩

theorem Between.iterate_mem (h : Between left right n x) (hlo : 0 ≤ i) (hhi : i < n) (m : ℕ) :
    0 ≤ (follow left right x)^[m] i ∧ (follow left right x)^[m] i < n := by
  induction m with
  | zero => exact ⟨hlo, hhi⟩
  | succ m ih =>
      rw [Function.iterate_succ_apply']
      exact h.follow_mem ih.1 ih.2

/-- No segment is empty, and neighbours overlap. -/
structure Overlap (left right : ℤ → α) (n : ℤ) : Prop where
  proper : ∀ i, 0 ≤ i → i < n → left i ≤ right i
  neighbours : ∀ i, 0 ≤ i → i + 1 < n → left (i + 1) ≤ right i

/-- A tracker that the value is not to the left of goes up, and settles. -/
theorem settles_up (h : Between left right n x) (hover : Overlap left right n) (hlo : 0 ≤ i)
    (hhi : i < n) (hleft : left i ≤ x) :
    Monotone (fun m => (follow left right x)^[m] i) ∧
      ∃ k : ℕ, (k : ℤ) ≤ n - 1 - i ∧ left ((follow left right x)^[k] i) ≤ x ∧
        x ≤ right ((follow left right x)^[k] i) := by
  have hstep : ∀ m, left ((follow left right x)^[m] i) ≤ x := by
    intro m
    induction m with
    | zero => exact hleft
    | succ m ih =>
        rw [Function.iterate_succ_apply']
        rcases lt_or_ge (right ((follow left right x)^[m] i)) x with hright | hright
        · have hmem := h.iterate_mem hlo hhi (m + 1)
          rw [Function.iterate_succ_apply', follow_of_gt ih hright] at hmem
          rw [follow_of_gt ih hright]
          exact (hover.neighbours _ (h.iterate_mem hlo hhi m).1 hmem.2).trans hright.le
        · rwa [follow_of_mem ih hright]
  refine ⟨monotone_nat_of_le_succ fun m => ?_, ?_⟩
  · simp only [Function.iterate_succ_apply']
    rcases lt_or_ge (right ((follow left right x)^[m] i)) x with hright | hright
    · rw [follow_of_gt (hstep m) hright]
      omega
    · rw [follow_of_mem (hstep m) hright]
  · -- Until it settles the tracker goes up by one with each step.
    by_contra hnever
    push Not at hnever
    have hclimb : ∀ m : ℕ, (m : ℤ) ≤ n - i → (follow left right x)^[m] i = i + m := by
      intro m hm
      induction m with
      | zero => simp
      | succ m ih =>
          push_cast at hm
          have hright := hnever m (by omega) (hstep m)
          rw [Function.iterate_succ_apply', follow_of_gt (hstep m) hright, ih (by omega)]
          push_cast
          omega
    have hmem := h.iterate_mem hlo hhi (n - i).toNat
    rw [hclimb _ (by omega)] at hmem
    omega

/-- A tracker that the value is to the left of goes down, and settles. -/
theorem settles_down (h : Between left right n x) (hover : Overlap left right n) (hlo : 0 ≤ i)
    (hhi : i < n) (hright : x ≤ right i) :
    Antitone (fun m => (follow left right x)^[m] i) ∧
      ∃ k : ℕ, (k : ℤ) ≤ i ∧ left ((follow left right x)^[k] i) ≤ x ∧
        x ≤ right ((follow left right x)^[k] i) := by
  have hstep : ∀ m, x ≤ right ((follow left right x)^[m] i) := by
    intro m
    induction m with
    | zero => exact hright
    | succ m ih =>
        rw [Function.iterate_succ_apply']
        rcases lt_or_ge x (left ((follow left right x)^[m] i)) with hleft | hleft
        · have hmem := h.iterate_mem hlo hhi (m + 1)
          rw [Function.iterate_succ_apply', follow_of_lt hleft] at hmem
          have hnext := hover.neighbours ((follow left right x)^[m] i - 1) hmem.1
            (by rw [sub_add_cancel]; exact (h.iterate_mem hlo hhi m).2)
          rw [sub_add_cancel] at hnext
          rw [follow_of_lt hleft]
          exact hleft.le.trans hnext
        · rwa [follow_of_mem hleft ih]
  refine ⟨antitone_nat_of_succ_le fun m => ?_, ?_⟩
  · simp only [Function.iterate_succ_apply']
    rcases lt_or_ge x (left ((follow left right x)^[m] i)) with hleft | hleft
    · rw [follow_of_lt hleft]
      omega
    · rw [follow_of_mem hleft (hstep m)]
  · by_contra hnever
    push Not at hnever
    have hfall : ∀ m : ℕ, (m : ℤ) ≤ i + 1 → (follow left right x)^[m] i = i - m := by
      intro m hm
      induction m with
      | zero => simp
      | succ m ih =>
          push_cast at hm
          have hleft : x < left ((follow left right x)^[m] i) := by
            by_contra hge
            exact absurd (hstep m) (not_le.mpr (hnever m (by omega) (not_lt.mp hge)))
          rw [Function.iterate_succ_apply', follow_of_lt hleft, ih (by omega)]
          push_cast
          omega
    have hmem := h.iterate_mem hlo hhi (i + 1).toNat
    rw [hfall _ (by omega)] at hmem
    omega

/-- A tracker among overlapping segments never turns round, and after fewer steps than
there are segments it stands at one that has the value in it. -/
theorem settles (h : Between left right n x) (hover : Overlap left right n) (hlo : 0 ≤ i)
    (hhi : i < n) :
    (Monotone (fun m => (follow left right x)^[m] i) ∨
        Antitone (fun m => (follow left right x)^[m] i)) ∧
      ∃ k : ℕ, (k : ℤ) ≤ n - 1 ∧ left ((follow left right x)^[k] i) ≤ x ∧
        x ≤ right ((follow left right x)^[k] i) := by
  rcases lt_or_ge x (left i) with hleft | hleft
  · have hright := hleft.le.trans (hover.proper i hlo hhi)
    obtain ⟨hmono, k, hk, hmem⟩ := settles_down h hover hlo hhi hright
    exact ⟨Or.inr hmono, k, by omega, hmem⟩
  · obtain ⟨hmono, k, hk, hmem⟩ := settles_up h hover hlo hhi hleft
    exact ⟨Or.inl hmono, k, by omega, hmem⟩

/-- A tracker that stands at a segment with the value in it stays there. -/
theorem iterate_of_mem (hleft : left i ≤ x) (hright : x ≤ right i) (m : ℕ) :
    (follow left right x)^[m] i = i :=
  Function.iterate_fixed (follow_of_mem hleft hright) m

end Tracking
