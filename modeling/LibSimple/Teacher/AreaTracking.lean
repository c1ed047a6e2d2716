import LibSimple.Teacher.AreaRange

/-!
# A teacher who stands still

`area_changed` called again and again with one offset: the area index goes one way only,
and soon stays where it is.
-/

namespace LibSimple.Teacher

open CLang Tracking

namespace TeacherPtz

/-- Calls of `area_changed` with this offset, from area `start` on: the index stays among
the areas and never turns round, and after at most `areas_ - 1` calls it is at an area
whose segment has the offset in it, which no later call changes. -/
def Converges (p : TeacherPtz) (offset start : ℤ) : Prop :=
  ∃ index : ℕ → ℤ, index 0 = start ∧
    (∀ n, ∃ changed, (p.standing (index n)).areaChanged offset =
      some (p.standing (index (n + 1)), changed)) ∧
    (∀ n, 0 ≤ index n ∧ index n < p.areas) ∧
    (Monotone index ∨ Antitone index) ∧
    ∃ k : ℕ, (k : ℤ) ≤ p.areas - 1 ∧
      (∃ s, p.segments? (index k) = some s ∧ s.left ≤ offset ∧ offset ≤ s.right) ∧
      ∀ n, k ≤ n → index n = index k ∧
        (p.standing (index n)).areaChanged offset = some (p.standing (index k), false)

variable {p : TeacherPtz} {offset : ℤ}

/-- The segments of areas that fit. -/
theorem segment_of_fit (h : p.Calibrated) (hfit : AreasFit p) (hareas : 1 ≤ p.areas)
    (hpos : 0 < p.width) {i : ℤ} (hlo : 0 ≤ i) (hhi : i < p.areas) :
    0 ≤ i * p.areaLength ∧ i * p.areaLength + p.areaLength ≤ p.width ∧
      (p.segment i).left = max 0 (i * p.areaLength - p.areaLength / 4) ∧
      (p.segment i).right = min p.calibrationRightEdge
        (i * p.areaLength + p.areaLength + p.areaLength / 4) := by
  have hwidth := hfit.width_le hareas hpos
  have hlength := areaLength_pos h hareas hpos hwidth hfit.divides
  have hmax := h.areas.2
  have hfits := hfit.fits
  rw [← h.areaLength_eq hpos.le hwidth, intMax_eq] at hfits
  have hstart : 0 ≤ i * p.areaLength := mul_nonneg hlo hlength.le
  have hend : i * p.areaLength + p.areaLength ≤ p.width := by
    calc
      i * p.areaLength + p.areaLength = (i + 1) * p.areaLength := by ring
      _ ≤ p.areas * p.areaLength := mul_le_mul_of_nonneg_right (by omega) hlength.le
      _ = p.width := h.areas_mul hpos.le hwidth hfit.divides
  have hnext : (i + 1) * p.areaLength = i * p.areaLength + p.areaLength := by ring
  refine ⟨hstart, hend, ?_, ?_⟩
  · rw [segment_left, mulInt, wrapInt_of_fits (by omega) (by omega), subInt,
      h.overlap_eq hlength.le, wrapInt_of_fits (by omega) (by omega)]
  · have hadd : addInt i 1 = i + 1 := wrapInt_of_fits (by omega) (by omega)
    rw [segment_right, hadd, mulInt, hnext, wrapInt_of_fits (by omega) (by omega), addInt,
      h.overlap_eq hlength.le, wrapInt_of_fits (by omega) (by omega)]

/-- Neighbouring segments overlap when the left edge is in the picture. -/
theorem overlap_of_fit (h : p.Calibrated) (hfit : AreasFit p) (hareas : 1 ≤ p.areas)
    (hpos : 0 < p.width) (hleft : 0 ≤ p.calibrationLeftEdge) :
    Overlap (fun j => (p.segment j).left) (fun j => (p.segment j).right) p.areas := by
  have hwidth : p.width = p.calibrationRightEdge - p.calibrationLeftEdge := rfl
  have hlength := areaLength_pos h hareas hpos (hfit.width_le hareas hpos) hfit.divides
  constructor
  · intro i hlo hhi
    obtain ⟨hstart, hend, hl, hr⟩ := segment_of_fit h hfit hareas hpos hlo hhi
    show (p.segment i).left ≤ (p.segment i).right
    rw [hl, hr]
    omega
  · intro i hlo hhi
    obtain ⟨hstart, hend, -, hr⟩ := segment_of_fit h hfit hareas hpos hlo (by omega)
    obtain ⟨hstart', hend', hl, -⟩ := segment_of_fit h hfit hareas hpos (by omega) hhi
    have hnext : (i + 1) * p.areaLength = i * p.areaLength + p.areaLength := by ring
    rw [hnext] at hend' hl
    show (p.segment (i + 1)).left ≤ (p.segment i).right
    rw [hl, hr]
    omega

/-- The tracker that `area_changed` is settles. -/
theorem converges_of_fit (h : p.Calibrated) (hfit : AreasFit p) (hareas : 1 ≤ p.areas)
    (hpos : 0 < p.width) (hleft : 0 ≤ p.calibrationLeftEdge) (hlo : 0 ≤ offset)
    (hhi : offset < p.width) {start : ℤ} (hfirst : 0 ≤ start) (hend : start < p.areas) :
    p.Converges offset start := by
  have hbetween := between_of_fit h hfit hareas hpos hlo hhi
  have hmem := hbetween.iterate_mem hfirst hend
  obtain ⟨hmono, k, hk, hin⟩ :=
    settles hbetween (overlap_of_fit h hfit hareas hpos hleft) hfirst hend
  have hcall : ∀ m, (p.standing ((p.next offset)^[m] start)).areaChanged offset =
      some (p.standing ((p.next offset)^[m + 1] start),
        decide ((p.next offset)^[m + 1] start ≠ (p.next offset)^[m] start)) := by
    intro m
    rw [Function.iterate_succ_apply']
    exact areaChanged_of_mem (h.standing _) (hmem m).1 (hmem m).2
  have hstay : ∀ m, (p.next offset)^[k + m] start = (p.next offset)^[k] start := by
    intro m
    rw [Nat.add_comm, Function.iterate_add_apply]
    exact iterate_of_mem hin.1 hin.2 m
  refine ⟨fun m => (p.next offset)^[m] start, rfl, fun m => ⟨_, hcall m⟩, hmem, hmono, k, hk,
    ⟨_, h.segments _ (hmem k).1 (hmem k).2, hin⟩, ?_⟩
  intro n hn
  obtain ⟨m, rfl⟩ := Nat.exists_eq_add_of_le hn
  refine ⟨hstay m, ?_⟩
  rw [hcall, hstay m, Nat.add_assoc, hstay (m + 1), decide_eq_false (by simp)]

/-- The index of a teacher at the last pixel stays among the areas only when the last
segment reaches there. -/
theorem next_of_converges (h : p.Calibrated) {start : ℤ} (hfirst : 0 ≤ start)
    (hend : start < p.areas) (hconv : p.Converges offset start) :
    p.next offset start < p.areas := by
  obtain ⟨index, hzero, hcall, hmem, -⟩ := hconv
  obtain ⟨changed, hone⟩ := hcall 0
  rw [hzero, areaChanged_of_mem (h.standing start) hfirst hend] at hone
  have hindex := congrArg (fun q => q.1.lastAreaIndex) (Option.some.inj hone)
  change p.next offset start = index 1 at hindex
  rw [hindex]
  exact (hmem 1).2

/-- Every offset converges exactly when the end of the last segment is an `int`. -/
theorem converges_iff_of_calibrated (h : p.Calibrated) (hareas : 1 ≤ p.areas)
    (hpos : 0 < p.width) (hfits : p.width ≤ intMax) (hdvd : p.areas ∣ p.width)
    (hleft : 0 ≤ p.calibrationLeftEdge) :
    (∀ offset start, 0 ≤ offset → offset < p.width → 0 ≤ start → start < p.areas →
        p.Converges offset start) ↔
      p.width + p.width / p.areas / 4 ≤ intMax := by
  constructor
  · intro hconv
    have hnext := next_of_converges h (by omega) (show p.areas - 1 < p.areas by omega)
      (hconv (p.width - 1) (p.areas - 1) (by omega) (by omega) (by omega) (by omega))
    rw [← h.areaLength_eq hpos.le hfits]
    exact (last_of_next h hareas hpos hfits hdvd hnext).2
  · intro hlast offset start hlo hhi hfirst hend
    have hright : 1 ≤ p.calibrationRightEdge := by
      unfold width at hpos
      omega
    exact converges_of_fit h ⟨by omega, hright, hdvd, hlast⟩ hareas hpos hleft hlo hhi hfirst hend

end TeacherPtz

/-- For areas that fill the width, the area index of a teacher who stands still converges
from everywhere exactly when the end of the last segment is an `int`. -/
theorem converges_iff {areas areaLength left : ℤ} (hori : ℤ → ℤ) (hareas : 1 ≤ areas)
    (hlength : 1 ≤ areaLength) (hleft : 0 ≤ left)
    (hright : left + areas * areaLength ≤ intMax) :
    (∀ offset start, 0 ≤ offset → offset < areas * areaLength → 0 ≤ start → start < areas →
        (TeacherPtz.ofEdges areas (left, left + areas * areaLength) hori).Converges
          offset start) ↔
      areas * areaLength + areaLength / 4 ≤ intMax := by
  have hle : areas ≤ areas * areaLength := le_mul_of_one_le_right (by omega) hlength
  have hfits : FitsInt areas := by
    rw [intMax_eq] at hright
    exact ⟨by omega, by omega⟩
  obtain ⟨p, hp⟩ : ∃ p, p = TeacherPtz.ofEdges areas (left, left + areas * areaLength) hori :=
    ⟨_, rfl⟩
  have h : p.Calibrated := hp ▸ TeacherPtz.calibrated_ofEdges hfits _ hori
  have hpareas : p.areas = areas := congrArg TeacherPtz.areas hp
  have hpleft : p.calibrationLeftEdge = left := congrArg TeacherPtz.calibrationLeftEdge hp
  have hwidth : p.width = areas * areaLength :=
    (congrArg TeacherPtz.width hp).trans (add_sub_cancel_left left (areas * areaLength))
  have hdvd : p.areas ∣ p.width := by
    rw [hwidth, hpareas]
    exact Dvd.intro _ rfl
  have hiff := TeacherPtz.converges_iff_of_calibrated h (by omega) (by omega) (by omega) hdvd
    (by omega)
  rwa [hwidth, hpareas, Int.mul_ediv_cancel_left _ (by omega), hp] at hiff

theorem converges_iff_three :
    (∀ offset start, 0 ≤ offset → offset < 3 * 300 → 0 ≤ start → start < 3 →
        (TeacherPtz.ofEdges 3 (30, 30 + 3 * 300) id).Converges offset start) ↔
      3 * 300 + 300 / 4 ≤ (intMax : ℤ) :=
  converges_iff id (by decide) (by decide) (by decide) (by rw [intMax_eq]; decide)

/-- One area of the largest width that an `int` has: a teacher in it is taken to be
behind it. -/
theorem not_converges :
    ¬ ∀ (areas areaLength left : ℤ) (hori : ℤ → ℤ), 1 ≤ areas → 1 ≤ areaLength → 0 ≤ left →
      left + areas * areaLength ≤ intMax →
      ∀ offset start, 0 ≤ offset → offset < areas * areaLength → 0 ≤ start → start < areas →
        (TeacherPtz.ofEdges areas (left, left + areas * areaLength) hori).Converges
          offset start := by
  intro h
  have hconv := h 1 2147483647 0 id (by decide) (by decide) (by decide)
    (by rw [intMax_eq]; decide) 0 0 (by decide) (by decide) (by decide) (by decide)
  have hnext := TeacherPtz.next_of_converges
    (TeacherPtz.calibrated_ofEdges (by decide) _ _) (by decide) (by decide) hconv
  revert hnext
  decide

end LibSimple.Teacher
