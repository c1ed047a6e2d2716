import Mathlib.Data.List.Basic

/-!
# Windows of a ring

A list used as a ring of slots holds a queue in consecutive slots, with at most
one wrap from the last slot to the first.
-/

namespace RingWindow

variable {α : Type*}

/-- The slot at distance `i` from the first one, in a ring of `size` slots, for
distances below `2 * size`. -/
def slot (size i : ℕ) : ℕ := if i < size then i else i - size

theorem slot_of_lt {size i : ℕ} (h : i < size) : slot size i = i := if_pos h

theorem slot_of_ge {size i : ℕ} (h : size ≤ i) : slot size i = i - size :=
  if_neg (Nat.not_lt.mpr h)

theorem slot_lt {size i : ℕ} (h : i < 2 * size) : slot size i < size := by
  unfold slot
  split_ifs <;> omega

/-- Going round once more makes no difference. -/
theorem slot_slot_add {size i n : ℕ} (h : i + n < 2 * size) :
    slot size (slot size i + n) = slot size (i + n) := by
  by_cases hi : i < size
  · rw [slot_of_lt hi]
  · have hback : i - size + n = i + n - size := by omega
    rw [slot_of_ge (show size ≤ i by omega), slot_of_ge (show size ≤ i + n by omega), hback,
      slot_of_lt (by omega)]

theorem mod_eq_slot {size i : ℕ} (h : i < 2 * size) : i % size = slot size i := by
  by_cases hi : i < size
  · rw [Nat.mod_eq_of_lt hi, slot_of_lt hi]
  · have hsub : i - size < size := by omega
    rw [Nat.mod_eq_sub_mod (by omega), Nat.mod_eq_of_lt hsub, slot_of_ge (by omega)]

/-- The buffer with `new` stored from slot `p` on. -/
def overwrite (buf : List α) (p : ℕ) (new : List α) : List α :=
  buf.take p ++ (new ++ buf.drop (p + new.length))

theorem length_overwrite {buf new : List α} {p : ℕ} (h : p + new.length ≤ buf.length) :
    (overwrite buf p new).length = buf.length := by
  simp only [overwrite, List.length_append, List.length_take, List.length_drop]
  omega

theorem getElem?_overwrite_new {buf new : List α} {p i : ℕ} (h : p ≤ buf.length)
    (hi : i < new.length) : (overwrite buf p new)[p + i]? = new[i]? := by
  have hlen : (buf.take p).length = p := List.length_take_of_le h
  rw [overwrite, List.getElem?_append_right (by omega), hlen, Nat.add_sub_cancel_left,
    List.getElem?_append_left hi]

theorem getElem?_overwrite_old {buf new : List α} {p i : ℕ} (h : p + new.length ≤ buf.length)
    (hi : i < p ∨ p + new.length ≤ i) : (overwrite buf p new)[i]? = buf[i]? := by
  have hlen : (buf.take p).length = p := List.length_take_of_le (by omega)
  rcases hi with hi | hi
  · rw [overwrite, List.getElem?_append_left (by omega), List.getElem?_take_of_lt hi]
  · rw [overwrite, List.getElem?_append_right (by omega),
      List.getElem?_append_right (by omega), List.getElem?_drop, hlen]
    congr 1
    omega

/-- The queue `q` lies in the ring from slot `t` on. -/
structure Window (buf : List α) (t : ℕ) (q : List α) : Prop where
  start : t < buf.length
  length : q.length ≤ buf.length
  elems : ∀ i < q.length, buf[slot buf.length (t + i)]? = q[i]?

theorem window_nil {buf : List α} {t : ℕ} (h : t < buf.length) : Window buf t [] where
  start := h
  length := Nat.zero_le _
  elems := fun i hi => absurd hi (Nat.not_lt_zero i)

namespace Window

variable {buf q new : List α} {t n : ℕ}

/-- A read that does not wrap gives a prefix of the queue. -/
theorem read (h : Window buf t q) (hn : n ≤ q.length) (hfit : t + n ≤ buf.length) :
    (buf.drop t).take n = q.take n := by
  refine List.ext_getElem? fun i => ?_
  by_cases hi : i < n
  · have helem := h.elems i (by omega)
    rw [slot_of_lt (by omega)] at helem
    rw [List.getElem?_take_of_lt hi, List.getElem?_take_of_lt hi, List.getElem?_drop, helem]
  · rw [List.getElem?_eq_none, List.getElem?_eq_none]
    · rw [List.length_take]
      omega
    · rw [List.length_take]
      omega

/-- Moving the start drops elements. -/
theorem drop (h : Window buf t q) (hn : n ≤ q.length) :
    Window buf (slot buf.length (t + n)) (q.drop n) where
  start := slot_lt (by have := h.start; have := h.length; omega)
  length := by
    rw [List.length_drop]
    exact Nat.le_trans (Nat.sub_le _ _) h.length
  elems := fun i hi => by
    have hstart := h.start
    have hlength := h.length
    rw [List.length_drop] at hi
    have hslot : slot buf.length (slot buf.length (t + n) + i) =
        slot buf.length (t + (n + i)) := by
      unfold slot
      split_ifs <;> omega
    rw [hslot, h.elems (n + i) (by omega), List.getElem?_drop]

/-- A write behind the queue that does not wrap appends to it, as long as the
queue does not reach its own start. -/
theorem append (h : Window buf t q) (hroom : q.length + new.length ≤ buf.length)
    (hfit : slot buf.length (t + q.length) + new.length ≤ buf.length) :
    Window (overwrite buf (slot buf.length (t + q.length)) new) t (q ++ new) where
  start := by
    rw [length_overwrite hfit]
    exact h.start
  length := by
    rw [length_overwrite hfit, List.length_append]
    exact hroom
  elems := fun i hi => by
    have hstart := h.start
    rw [List.length_append] at hi
    rw [length_overwrite hfit]
    by_cases hold : i < q.length
    · rw [List.getElem?_append_left hold, ← h.elems i hold]
      refine getElem?_overwrite_old hfit ?_
      unfold slot at hfit ⊢
      split_ifs at * <;> omega
    · have hslot : slot buf.length (t + i) =
          slot buf.length (t + q.length) + (i - q.length) := by
        unfold slot at hfit ⊢
        split_ifs at * <;> omega
      rw [hslot, List.getElem?_append_right (by omega)]
      exact getElem?_overwrite_new (by omega) (by omega)

end Window

end RingWindow
