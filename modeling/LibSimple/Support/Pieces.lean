import Mathlib.Data.List.Basic
import Mathlib.Order.Nat

/-!
# Pieces of a stream

A stream is cut into pieces of given lengths one after another, as far as it goes.
-/

namespace Pieces

variable {α : Type*}

/-- Pieces of these lengths; a piece that is too short is the last one. -/
inductive Fills : List (List α) → List ℕ → Prop
  | nil : Fills [] []
  | full {p : List α} {n : ℕ} {pieces : List (List α)} {lengths : List ℕ} (hp : p.length = n)
      (hrest : Fills pieces lengths) : Fills (p :: pieces) (n :: lengths)
  | short {p : List α} {n : ℕ} {lengths : List ℕ} (hp : p.length < n) :
      Fills [p] (n :: lengths)

variable {pieces pieces' lists : List (List α)} {lengths : List ℕ} {p l xs ys : List α}

theorem isPrefix_left (hle : p.length ≤ l.length) (h : p ++ xs <+: l ++ ys) : p <+: l :=
  List.prefix_of_prefix_length_le ((List.prefix_append p xs).trans h) (List.prefix_append l ys) hle

theorem append_isPrefix_iff (hlength : p.length = l.length) :
    p ++ xs <+: l ++ ys ↔ p = l ∧ xs <+: ys := by
  constructor
  · intro h
    obtain rfl := (isPrefix_left hlength.le h).eq_of_length hlength
    exact ⟨rfl, (List.prefix_append_right_inj p).mp h⟩
  · rintro ⟨rfl, h⟩
    exact (List.prefix_append_right_inj p).mpr h

/-- Every piece is the start of the list in its place. -/
def Starts (pieces lists : List (List α)) : Prop :=
  ∀ (i : ℕ) (p l : List α), pieces[i]? = some p → lists[i]? = some l → p <+: l

theorem starts_cons : Starts (p :: pieces) (l :: lists) ↔ p <+: l ∧ Starts pieces lists := by
  constructor
  · intro h
    exact ⟨h 0 p l rfl rfl, fun i => h (i + 1)⟩
  · rintro ⟨hhead, htail⟩ i p' l' hp hl
    cases i with
    | zero =>
        cases hp
        cases hl
        exact hhead
    | succ i => exact htail i p' l' hp hl

theorem starts_nil : Starts [] lists := fun _ _ _ hp _ => by cases hp

/-- The stream is the start of all the lists when every piece is the start of its list. -/
theorem Fills.flatten_isPrefix_iff (h : Fills pieces (lists.map List.length)) :
    pieces.flatten <+: lists.flatten ↔ Starts pieces lists := by
  induction lists generalizing pieces with
  | nil =>
      cases h
      exact iff_of_true List.prefix_rfl starts_nil
  | cons l lists ih =>
      cases h with
      | @full p _ pieces _ hp hrest =>
          rw [List.flatten_cons, List.flatten_cons, append_isPrefix_iff hp, ih hrest, starts_cons]
          refine and_congr_left fun _ => ⟨fun heq => heq ▸ List.prefix_rfl, fun hpre => ?_⟩
          exact hpre.eq_of_length hp
      | @short p _ _ hp =>
          rw [starts_cons, List.flatten_cons, List.flatten_cons]
          constructor
          · exact fun h => ⟨isPrefix_left hp.le h, starts_nil⟩
          · rintro ⟨hpre, -⟩
            rw [List.flatten_nil, List.append_nil]
            exact hpre.trans (List.prefix_append l _)

/-- A longer stream has the same pieces where they are full. -/
theorem Fills.full_of_isPrefix (h : Fills pieces lengths) (h' : Fills pieces' lengths)
    (hstream : pieces.flatten <+: pieces'.flatten) {i : ℕ} (hp : pieces[i]? = some p)
    (hfull : lengths[i]? = some p.length) : pieces'[i]? = some p := by
  induction h generalizing pieces' i with
  | nil => cases hp
  | @full q n pieces lengths hq hrest ih =>
      cases h' with
      | @full q' _ pieces' _ hq' hrest' =>
          rw [List.flatten_cons, List.flatten_cons, append_isPrefix_iff (hq.trans hq'.symm)]
            at hstream
          obtain ⟨rfl, hstream⟩ := hstream
          cases i with
          | zero => exact hp
          | succ i => exact ih hrest' hstream hp hfull
      | @short q' _ _ hq' =>
          -- the other stream would end inside the first piece
          have hle := hstream.length_le
          rw [List.flatten_cons, List.flatten_cons, List.flatten_nil, List.append_nil,
            List.length_append] at hle
          omega
  | @short q n lengths hq =>
      cases i with
      | zero =>
          cases hp
          rw [List.getElem?_cons_zero, Option.some_inj] at hfull
          exact absurd hfull hq.ne'
      | succ i => cases hp

end Pieces
