import LibSimple.Teacher.Areas

/-!
# The area index

Over which calibrations `area_changed` only comes to areas that exist.  The last area
has to reach to the right edge, which it does not when the width leaves a remainder; and
the cut at the right edge must not make the last segment shorter than the area.
-/

namespace LibSimple.Teacher

open CLang Tracking

/-! ## The edges -/

theorem fitsInt_widen {edges : ℤ × ℤ} (h : FitsInt edges.1 ∧ FitsInt edges.2) (pt : CvPoint) :
    FitsInt (widen edges pt).1 ∧ FitsInt (widen edges pt).2 := by
  simp only [widen]
  constructor
  · split_ifs
    · exact pt.x.2
    · exact h.1
  · split_ifs
    · exact pt.x.2
    · exact h.2

/-- The calibrated edges are `int`s. -/
theorem fitsInt_loadCalibrationEdge (getValue : CStr → Option CStr) {middle : ℤ}
    (h : FitsInt middle) :
    FitsInt (loadCalibrationEdge getValue middle).1 ∧
      FitsInt (loadCalibrationEdge getValue middle).2 := by
  have hfold : ∀ (points : List CvPoint) (edges : ℤ × ℤ), FitsInt edges.1 ∧ FitsInt edges.2 →
      FitsInt (points.foldl widen edges).1 ∧ FitsInt (points.foldl widen edges).2 := by
    intro points
    induction points with
    | nil => exact fun _ hedges => hedges
    | cons pt points ih => exact fun _ hedges => ih _ (fitsInt_widen hedges pt)
  exact hfold _ _ ⟨h, h⟩

theorem fitsInt_half {x : ℤ} (h : FitsInt x) : FitsInt (x.tdiv 2) := by
  have hle := Int.natAbs_tdiv_le_natAbs x 2
  obtain ⟨hlo, hhi⟩ := h
  rcases le_or_gt 0 x with hx | hx
  · have hnonneg := Int.tdiv_nonneg hx (by decide : (0 : ℤ) ≤ 2)
    exact ⟨by omega, by omega⟩
  · have hnonneg := Int.tdiv_nonneg (Int.neg_nonneg_of_nonpos hx.le) (by decide : (0 : ℤ) ≤ 2)
    rw [Int.neg_tdiv] at hnonneg
    exact ⟨by omega, by omega⟩

/-- The constructor works on `int`s. -/
theorem create_eq (getValue : CStr → Option CStr) (hori : ℤ → ℤ) :
    ∃ areas edges, TeacherPtz.create getValue hori = .ofEdges areas edges hori ∧
      FitsInt areas ∧ FitsInt edges.1 ∧ FitsInt edges.2 := by
  have hatoi : ∀ s, FitsInt (atoi s) := fun s => fitsInt_wrapInt _
  refine ⟨_, _, rfl, ?_, fitsInt_loadCalibrationEdge _ (fitsInt_half (hatoi _))⟩
  split_ifs
  · decide
  · exact hatoi _

/-! ## One call -/

namespace TeacherPtz

/-- What the constructor leaves for `area_changed`. -/
structure Calibrated (p : TeacherPtz) : Prop where
  areas : FitsInt p.areas
  areaLength : p.areaLength =
    (subInt p.calibrationRightEdge p.calibrationLeftEdge).tdiv p.areas
  areaOverlapLength : p.areaOverlapLength = p.areaLength.tdiv 4
  segments : ∀ i, 0 ≤ i → i < p.areas → p.segments? i = some (p.segment i)

theorem calibrated_ofEdges {areas : ℤ} (hareas : FitsInt areas) (edges : ℤ × ℤ)
    (hori : ℤ → ℤ) : Calibrated (ofEdges areas edges hori) where
  areas := hareas
  areaLength := rfl
  areaOverlapLength := rfl
  segments := by
    intro i hlo hhi
    have hi : i.toNat < areas.toNat := (Int.toNat_lt_toNat (hlo.trans_lt hhi)).mpr hhi
    rw [segments?, if_pos hlo]
    show ((List.range areas.toNat).map fun j : ℕ =>
      (ofEdges areas edges hori).segment j)[i.toNat]? = _
    rw [List.getElem?_map, List.getElem?_range hi, Option.map_some, Int.toNat_of_nonneg hlo]

/-- The platform points at area `i`. -/
def standing (p : TeacherPtz) (i : ℤ) : TeacherPtz := { p with lastAreaIndex := i }

theorem Calibrated.standing {p : TeacherPtz} (h : Calibrated p) (i : ℤ) :
    Calibrated (p.standing i) where
  areas := h.areas
  areaLength := h.areaLength
  areaOverlapLength := h.areaOverlapLength
  segments := h.segments

/-- The area that `area_changed` goes on to from area `i`. -/
def next (p : TeacherPtz) (offset i : ℤ) : ℤ :=
  follow (fun j => (p.segment j).left) (fun j => (p.segment j).right) offset i

variable {p : TeacherPtz} {offset : ℤ}

/-- A call that starts at an area moves as a tracker does. -/
theorem areaChanged_of_mem (h : p.Calibrated) (hlo : 0 ≤ p.lastAreaIndex)
    (hhi : p.lastAreaIndex < p.areas) :
    p.areaChanged offset = some (p.standing (p.next offset p.lastAreaIndex),
      decide (p.next offset p.lastAreaIndex ≠ p.lastAreaIndex)) := by
  have hmax := h.areas.2
  have hsub : subInt p.lastAreaIndex 1 = p.lastAreaIndex - 1 :=
    wrapInt_of_fits (by omega) (by omega)
  have hadd : addInt p.lastAreaIndex 1 = p.lastAreaIndex + 1 :=
    wrapInt_of_fits (by omega) (by omega)
  have hne : p.lastAreaIndex ≠ -1 := by omega
  rw [areaChanged, if_neg hne, h.segments _ hlo hhi, Option.bind_eq_bind, Option.bind_some,
    next, follow, hsub, hadd]
  split_ifs with hleft hright
  · rw [decide_eq_true (by omega)]
    rfl
  · rw [decide_eq_true (by omega)]
    rfl
  · rw [decide_eq_false (by simp)]
    rfl

/-- A call that does not know an area divides. -/
theorem areaChanged_of_unknown (hlast : p.lastAreaIndex = -1) :
    p.areaChanged offset =
      if p.areaLength = 0 then none
      else if offset.tdiv p.areaLength < p.areas then
        some (p.standing (offset.tdiv p.areaLength), true)
      else none := by
  rw [areaChanged, if_pos hlast]
  rfl

/-! ## The offset of a box -/

theorem tdiv_two (x : ℤ) : x.tdiv 2 = if 0 ≤ x then x / 2 else -(-x / 2) := by
  split_ifs with hx
  · exact Int.tdiv_eq_ediv_of_nonneg hx
  · rw [← Int.tdiv_eq_ediv_of_nonneg (by omega), Int.neg_tdiv, neg_neg]

theorem half_mem {l r a b : ℤ} (ha : a ≤ l) (hlt : l < r) (hb : r ≤ b) (hpos : 1 ≤ b) :
    a ≤ (l + r).tdiv 2 ∧ (l + r).tdiv 2 < b := by
  rw [tdiv_two]
  split_ifs
  · omega
  · omega

/-- The calibrated width. -/
def width (p : TeacherPtz) : ℤ := p.calibrationRightEdge - p.calibrationLeftEdge

/-- A box inside of the calibrated edges has its offset inside of the width. -/
theorem offset_mem {lr : Pos} (hlr : p.Asserted lr) (hright : 1 ≤ p.calibrationRightEdge)
    (hfits : p.width ≤ intMax) : 0 ≤ p.offset lr ∧ p.offset lr < p.width := by
  obtain ⟨hl, hr, hlt⟩ := hlr
  rw [intMax_eq] at hfits
  unfold width at hfits ⊢
  obtain ⟨hlo, hhi⟩ := half_mem hl hlt hr hright
  rw [offset, subInt, wrapInt_of_fits (by omega) (by omega)]
  omega

/-- The box of the two pixels around a place. -/
def around (c : ℤ) : Pos := ⟨c - 1, c + 1⟩

theorem offset_around {c : ℤ} (hlo : 0 ≤ c - p.calibrationLeftEdge)
    (hhi : c - p.calibrationLeftEdge ≤ intMax) :
    p.offset (around c) = c - p.calibrationLeftEdge := by
  have hmiddle : (c - 1 + (c + 1)).tdiv 2 = c := by
    rw [show c - 1 + (c + 1) = c * 2 by ring, Int.mul_tdiv_cancel c (by decide)]
  rw [intMax_eq] at hhi
  rw [offset, around, hmiddle, subInt, wrapInt_of_fits (by omega) (by omega)]

theorem asserted_around {c : ℤ} (hlo : p.calibrationLeftEdge < c)
    (hhi : c < p.calibrationRightEdge) : p.Asserted (around c) := by
  refine ⟨?_, ?_, ?_⟩
  · show p.calibrationLeftEdge ≤ c - 1
    omega
  · show c + 1 ≤ p.calibrationRightEdge
    omega
  · show c - 1 < c + 1
    omega

/-- The box of the last pixel. -/
def lastBox (p : TeacherPtz) : Pos := ⟨p.calibrationRightEdge - 1, p.calibrationRightEdge⟩

theorem asserted_lastBox (hedges : p.calibrationLeftEdge < p.calibrationRightEdge) :
    p.Asserted p.lastBox := by
  refine ⟨?_, le_rfl, ?_⟩
  · show p.calibrationLeftEdge ≤ p.calibrationRightEdge - 1
    omega
  · show p.calibrationRightEdge - 1 < p.calibrationRightEdge
    omega

theorem offset_lastBox (hedges : p.calibrationLeftEdge < p.calibrationRightEdge)
    (hfits : p.width ≤ intMax) :
    p.offset p.lastBox = if 1 ≤ p.calibrationRightEdge then p.width - 1 else p.width := by
  have hhalf : (p.calibrationRightEdge - 1 + p.calibrationRightEdge).tdiv 2 =
      if 1 ≤ p.calibrationRightEdge then p.calibrationRightEdge - 1
      else p.calibrationRightEdge := by
    rw [tdiv_two]
    split_ifs <;> omega
  rw [intMax_eq] at hfits
  unfold width at hfits ⊢
  rw [offset, lastBox, hhalf, subInt]
  split_ifs
  · rw [wrapInt_of_fits (by omega) (by omega)]
    omega
  · rw [wrapInt_of_fits (by omega) (by omega)]

/-! ## Segments -/

theorem segment_left (i : ℤ) : (p.segment i).left =
    max 0 (subInt (mulInt i p.areaLength) p.areaOverlapLength) := by
  rw [segment, max_comm, max_def_lt]

theorem segment_right (i : ℤ) : (p.segment i).right =
    min p.calibrationRightEdge
      (addInt (mulInt (addInt i 1) p.areaLength) p.areaOverlapLength) := by
  rw [segment, min_def_lt]

/-- The width fits an `int` as long as it is not negative there. -/
theorem Calibrated.areaLength_eq (h : p.Calibrated) (hpos : 0 ≤ p.width)
    (hfits : p.width ≤ intMax) : p.areaLength = p.width / p.areas := by
  rw [intMax_eq] at hfits
  rw [h.areaLength, subInt, show p.calibrationRightEdge - p.calibrationLeftEdge = p.width from rfl,
    wrapInt_of_fits (by omega) (by omega), Int.tdiv_eq_ediv_of_nonneg hpos]

/-- Areas that fill the width without a remainder. -/
theorem Calibrated.areas_mul (h : p.Calibrated) (hpos : 0 ≤ p.width) (hfits : p.width ≤ intMax)
    (hdvd : p.areas ∣ p.width) : p.areas * p.areaLength = p.width := by
  rw [h.areaLength_eq hpos hfits, Int.mul_ediv_cancel' hdvd]

/-- The overlap of areas that have a length. -/
theorem Calibrated.overlap_eq (h : p.Calibrated) (hlength : 0 ≤ p.areaLength) :
    p.areaOverlapLength = p.areaLength / 4 := by
  rw [h.areaOverlapLength, Int.tdiv_eq_ediv_of_nonneg hlength]

theorem segment_zero_left (h : p.Calibrated) (hlength : 0 ≤ p.areaLength)
    (hmax : p.areaLength ≤ intMax) : (p.segment 0).left = 0 := by
  have hoverlap := h.overlap_eq hlength
  rw [intMax_eq] at hmax
  rw [segment_left, mulInt, zero_mul, subInt, wrapInt_of_fits (x := 0) (by omega) (by omega),
    wrapInt_of_fits (by omega) (by omega)]
  omega

/-- The end of the last segment, cut off at the right edge. -/
theorem segment_last_right (h : p.Calibrated) (hareas : 1 ≤ p.areas) (hpos : 0 ≤ p.width)
    (hfits : p.width ≤ intMax) (hdvd : p.areas ∣ p.width) :
    (p.segment (p.areas - 1)).right =
      min p.calibrationRightEdge (wrapInt (p.width + p.areaLength / 4)) := by
  have hmax := h.areas.2
  have hlength : 0 ≤ p.areaLength := by
    rw [h.areaLength_eq hpos hfits]
    exact Int.ediv_nonneg hpos (by omega)
  have hadd : addInt (p.areas - 1) 1 = p.areas := by
    rw [addInt, wrapInt_of_fits (by omega) (by omega)]
    omega
  rw [intMax_eq] at hfits
  rw [segment_right, hadd, mulInt, h.areas_mul hpos (by rw [intMax_eq]; exact hfits) hdvd,
    wrapInt_of_fits (by omega) (by omega), addInt, h.overlap_eq hlength]

end TeacherPtz

/-! ## Runs -/

/-- What happens to the area index: a detection, or the reset of the platform. -/
inductive Event
  | detected (d : DetectedData)
  | reset

/-- A detection has a box that satisfies the assertion. -/
def Event.Allowed (p : TeacherPtz) : Event → Prop
  | .detected d => d.valid = true ∧ ∃ lr poss, d.poss = lr :: poss ∧ p.Asserted lr
  | .reset => True

/-- Every index that is computed belongs to an area. -/
def IndexesInRange : TeacherPtz → List Event → Prop
  | _, [] => True
  | p, .reset :: events => IndexesInRange (p.standing (-1)) events
  | p, .detected d :: events =>
      ∃ p' changed, p.getAreaFromData d = some (p', changed) ∧ 0 ≤ p'.lastAreaIndex ∧
        p'.lastAreaIndex < p'.areas ∧ IndexesInRange p' events

/-- The areas fill the width without a remainder, the right edge is right of the
picture's first pixel and the left edge at most one pixel left of it, and the end of the
last segment is an `int`. -/
structure AreasFit (p : TeacherPtz) : Prop where
  left : -1 ≤ p.calibrationLeftEdge
  right : 1 ≤ p.calibrationRightEdge
  divides : p.areas ∣ p.width
  fits : p.width + p.width / p.areas / 4 ≤ intMax

theorem AreasFit.width_le {p : TeacherPtz} (hfit : AreasFit p) (hareas : 1 ≤ p.areas)
    (hpos : 0 < p.width) : p.width ≤ intMax := by
  have hfits := hfit.fits
  have hnonneg := Int.ediv_nonneg hpos.le (show 0 ≤ p.areas by omega)
  omega

namespace TeacherPtz

variable {p : TeacherPtz}

theorem getAreaFromData_asserted {d : DetectedData} (hvalid : d.valid = true) {lr : Pos}
    {poss : List Pos} (hposs : d.poss = lr :: poss) (hlr : p.Asserted lr) :
    p.getAreaFromData d = p.areaChanged (p.offset lr) := by
  rw [getAreaFromData, if_pos hvalid, hposs]
  exact if_pos hlr

/-- What the calibration has to satisfy: the width fits an `int`, and the areas fill it
with a length of at least one. -/
theorem areaLength_pos (h : p.Calibrated) (hareas : 1 ≤ p.areas) (hpos : 0 < p.width)
    (hfits : p.width ≤ intMax) (hdvd : p.areas ∣ p.width) : 0 < p.areaLength := by
  by_contra hle
  have hmul := h.areas_mul hpos.le hfits hdvd
  have hnonpos := mul_nonpos_of_nonneg_of_nonpos (show 0 ≤ p.areas by omega) (not_lt.mp hle)
  omega

/-- An offset inside of the width is between the first segment and the last one. -/
theorem between_of_fit (h : p.Calibrated) (hfit : AreasFit p) (hareas : 1 ≤ p.areas)
    (hpos : 0 < p.width) {x : ℤ} (hlo : 0 ≤ x) (hhi : x < p.width) :
    Between (fun j => (p.segment j).left) (fun j => (p.segment j).right) p.areas x := by
  have hwidth := hfit.width_le hareas hpos
  have hlength := areaLength_pos h hareas hpos hwidth hfit.divides
  have heq := h.areaLength_eq hpos.le hwidth
  have hfits := hfit.fits
  have hle : p.areaLength ≤ p.width := by
    rw [heq]
    exact Int.ediv_le_self _ hpos.le
  rw [← heq, intMax_eq] at hfits
  constructor
  · show (p.segment 0).left ≤ x
    rwa [segment_zero_left h hlength.le (by omega)]
  · show x ≤ (p.segment (p.areas - 1)).right
    rw [segment_last_right h hareas hpos.le hwidth hfit.divides,
      wrapInt_of_fits (by omega) (by omega)]
    have hleft := hfit.left
    unfold width at hhi hpos ⊢
    omega

/-- A detection comes to an area. -/
theorem getAreaFromData_of_fit (h : p.Calibrated) (hfit : AreasFit p) (hareas : 1 ≤ p.areas)
    (hpos : 0 < p.width)
    (hlast : p.lastAreaIndex = -1 ∨ 0 ≤ p.lastAreaIndex ∧ p.lastAreaIndex < p.areas)
    {d : DetectedData} (hd : (Event.detected d).Allowed p) :
    ∃ i changed, p.getAreaFromData d = some (p.standing i, changed) ∧ 0 ≤ i ∧ i < p.areas := by
  obtain ⟨hvalid, lr, poss, hposs, hlr⟩ := hd
  have hwidth := hfit.width_le hareas hpos
  obtain ⟨hlo, hhi⟩ := offset_mem hlr hfit.right hwidth
  rw [getAreaFromData_asserted hvalid hposs hlr]
  rcases hlast with hlast | ⟨hfirst, hend⟩
  · have hlength := areaLength_pos h hareas hpos hwidth hfit.divides
    have hquot : p.offset lr / p.areaLength < p.areas := by
      apply Int.ediv_lt_of_lt_mul hlength
      rwa [h.areas_mul hpos.le hwidth hfit.divides]
    refine ⟨p.offset lr / p.areaLength, true, ?_, Int.ediv_nonneg hlo hlength.le, hquot⟩
    rw [← Int.tdiv_eq_ediv_of_nonneg hlo] at hquot ⊢
    rw [areaChanged_of_unknown hlast, if_neg hlength.ne', if_pos hquot]
  · have hnext := (between_of_fit h hfit hareas hpos hlo hhi).follow_mem hfirst hend
    exact ⟨_, _, areaChanged_of_mem h hfirst hend, hnext⟩

end TeacherPtz

/-- Every run comes to areas only. -/
theorem indexesInRange_of_fit {p : TeacherPtz} (h : p.Calibrated) (hfit : AreasFit p)
    (hareas : 1 ≤ p.areas) (hpos : 0 < p.width)
    (hlast : p.lastAreaIndex = -1 ∨ 0 ≤ p.lastAreaIndex ∧ p.lastAreaIndex < p.areas)
    {events : List Event} (hevents : ∀ e ∈ events, e.Allowed p) : IndexesInRange p events := by
  induction events generalizing p with
  | nil => trivial
  | cons e events ih =>
      rw [List.forall_mem_cons] at hevents
      have hfit' : ∀ i, AreasFit (p.standing i) := fun i =>
        ⟨hfit.left, hfit.right, hfit.divides, hfit.fits⟩
      cases e with
      | reset => exact ih (h.standing _) (hfit' _) hareas hpos (Or.inl rfl) hevents.2
      | detected d =>
          obtain ⟨i, changed, hstep, hlo, hhi⟩ :=
            TeacherPtz.getAreaFromData_of_fit h hfit hareas hpos hlast hevents.1
          exact ⟨p.standing i, changed, hstep, hlo, hhi,
            ih (h.standing _) (hfit' _) hareas hpos (Or.inr ⟨hlo, hhi⟩) hevents.2⟩

/-! ## Calibrations that do not fit -/

/-- The same box is detected twice. -/
def twice (lr : Pos) : List Event := [.detected ⟨true, 0, [lr]⟩, .detected ⟨true, 0, [lr]⟩]

theorem allowed_twice {p : TeacherPtz} {lr : Pos} (hlr : p.Asserted lr) :
    ∀ e ∈ twice lr, e.Allowed p := by
  have hallowed : (Event.detected ⟨true, 0, [lr]⟩).Allowed p := ⟨rfl, lr, [], rfl, hlr⟩
  rw [twice, List.forall_mem_cons, List.forall_mem_singleton]
  exact ⟨hallowed, hallowed⟩

namespace TeacherPtz

variable {p : TeacherPtz}

/-- What the two calls come to for a box that is detected twice. -/
structure Follows (p : TeacherPtz) (x : ℤ) : Prop where
  length : p.areaLength ≠ 0
  nonneg : 0 ≤ x.tdiv p.areaLength
  lt : x.tdiv p.areaLength < p.areas
  next_nonneg : 0 ≤ p.next x (x.tdiv p.areaLength)
  next_lt : p.next x (x.tdiv p.areaLength) < p.areas

theorem follows_of_inRange (h : p.Calibrated) (hlast : p.lastAreaIndex = -1) {lr : Pos}
    (hlr : p.Asserted lr) (hrange : IndexesInRange p (twice lr)) : p.Follows (p.offset lr) := by
  obtain ⟨p', changed, hfirst, hlo, hhi, p'', changed', hsecond, hlo', hhi', -⟩ := hrange
  rw [getAreaFromData_asserted rfl rfl hlr, areaChanged_of_unknown hlast] at hfirst
  split_ifs at hfirst with hlength hlt
  obtain ⟨rfl, rfl⟩ := Prod.mk.inj (Option.some.inj hfirst)
  have hlr' : (p.standing ((p.offset lr).tdiv p.areaLength)).Asserted lr := hlr
  rw [getAreaFromData_asserted rfl rfl hlr', areaChanged_of_mem (h.standing _) hlo hhi] at hsecond
  obtain ⟨rfl, rfl⟩ := Prod.mk.inj (Option.some.inj hsecond)
  exact ⟨hlength, hlo, hhi, hlo', hhi'⟩

/-- A width that is negative as an `int` makes the index negative. -/
theorem width_le_of_follows (h : p.Calibrated) (hareas : 1 ≤ p.areas)
    (hleft : FitsInt p.calibrationLeftEdge) (hright : FitsInt p.calibrationRightEdge)
    (hedges : p.calibrationLeftEdge < p.calibrationRightEdge)
    (hsafe : ∀ lr, p.Asserted lr → p.Follows (p.offset lr)) : p.width ≤ intMax := by
  by_contra hwide
  rw [intMax_eq] at hwide
  have hmin := hleft.1
  have hmax := hright.2
  have hwidth : p.width = p.calibrationRightEdge - p.calibrationLeftEdge := rfl
  have hlength : p.areaLength = -((4294967296 - p.width) / p.areas) := by
    rw [h.areaLength, subInt, ← hwidth, wrapInt_of_gt (by omega) (by omega),
      ← Int.tdiv_eq_ediv_of_nonneg (by omega), ← Int.neg_tdiv]
    congr 1
    omega
  have hnonneg : 0 ≤ (4294967296 - p.width) / p.areas := Int.ediv_nonneg (by omega) (by omega)
  have hle : (4294967296 - p.width) / p.areas ≤ 4294967296 - p.width :=
    Int.ediv_le_self _ (by omega)
  have hne := (hsafe _ (asserted_lastBox hedges)).length
  by_cases hfits : -p.areaLength ≤ intMax
  · rw [intMax_eq] at hfits
    have hasserted : p.Asserted _ := asserted_around (c := p.calibrationLeftEdge - p.areaLength)
      (by omega) (by omega)
    have hoffset := offset_around (p := p) (c := p.calibrationLeftEdge - p.areaLength)
      (by omega) (by rw [intMax_eq]; omega)
    have hindex := (hsafe _ hasserted).nonneg
    rw [hoffset, sub_sub_cancel_left, Int.neg_tdiv, Int.tdiv_self hne] at hindex
    omega
  · rw [intMax_eq] at hfits
    have hone : p.areas = 1 := by
      have hmul := (Int.le_ediv_iff_mul_le (show 0 < p.areas by omega)).mp
        (show 2147483648 ≤ (4294967296 - p.width) / p.areas by omega)
      omega
    have hlength : p.areaLength = -2147483648 := by omega
    have hoverlap : p.areaOverlapLength = -536870912 := by
      rw [h.areaOverlapLength, hlength]
      rfl
    have hasserted : p.Asserted _ := asserted_around (c := p.calibrationLeftEdge + 1)
      (by omega) (by omega)
    have hoffset := offset_around (p := p) (c := p.calibrationLeftEdge + 1)
      (by omega) (by rw [intMax_eq]; omega)
    have hnext := (hsafe _ hasserted).next_nonneg
    rw [hoffset, add_sub_cancel_left, hlength, show Int.tdiv 1 (-2147483648) = 0 from rfl, next,
      follow_of_lt] at hnext
    · omega
    · show 1 < (p.segment 0).left
      rw [segment_left, hlength, hoverlap]
      decide

/-- A right edge at the first pixel or left of it makes the index too large. -/
theorem right_of_follows (h : p.Calibrated) (hareas : 1 ≤ p.areas)
    (hedges : p.calibrationLeftEdge < p.calibrationRightEdge) (hfits : p.width ≤ intMax)
    (hsafe : ∀ lr, p.Asserted lr → p.Follows (p.offset lr)) : 1 ≤ p.calibrationRightEdge := by
  by_contra hright
  have hpos : 0 ≤ p.width := by
    unfold width
    omega
  have hlength := h.areaLength_eq hpos hfits
  have hlast := hsafe _ (asserted_lastBox hedges)
  rw [offset_lastBox hedges hfits, if_neg hright] at hlast
  have hlengthPos : 0 < p.areaLength :=
    lt_of_le_of_ne (by rw [hlength]; exact Int.ediv_nonneg hpos (by omega)) hlast.length.symm
  have hlt := hlast.lt
  rw [Int.tdiv_eq_ediv_of_nonneg hpos] at hlt
  have hge : p.areas ≤ p.width / p.areaLength := by
    apply Int.le_ediv_of_mul_le hlengthPos
    rw [hlength]
    exact Int.mul_ediv_self_le (by omega)
  omega

/-- A remainder of the division is a last area without a segment. -/
theorem divides_of_follows (h : p.Calibrated) (hareas : 1 ≤ p.areas)
    (hedges : p.calibrationLeftEdge < p.calibrationRightEdge) (hfits : p.width ≤ intMax)
    (hright : 1 ≤ p.calibrationRightEdge)
    (hsafe : ∀ lr, p.Asserted lr → p.Follows (p.offset lr)) : p.areas ∣ p.width := by
  by_contra hdvd
  have hpos : 0 < p.width := by
    unfold width
    omega
  have hlength := h.areaLength_eq hpos.le hfits
  have hlast := hsafe _ (asserted_lastBox hedges)
  rw [offset_lastBox hedges hfits, if_pos hright] at hlast
  have hlengthPos : 0 < p.areaLength :=
    lt_of_le_of_ne (by rw [hlength]; exact Int.ediv_nonneg hpos.le (by omega)) hlast.length.symm
  have hlt := hlast.lt
  rw [Int.tdiv_eq_ediv_of_nonneg (by omega)] at hlt
  have hle : p.areas * p.areaLength ≤ p.width := by
    rw [hlength]
    exact Int.mul_ediv_self_le (by omega)
  have hne : p.areas * p.areaLength ≠ p.width := fun heq => hdvd ⟨_, heq.symm⟩
  have hge : p.areas ≤ (p.width - 1) / p.areaLength := Int.le_ediv_of_mul_le hlengthPos (by omega)
  omega

/-- A teacher at the last pixel stays at the last area only when its segment reaches
there. -/
theorem last_of_next (h : p.Calibrated) (hareas : 1 ≤ p.areas) (hpos : 0 < p.width)
    (hfits : p.width ≤ intMax) (hdvd : p.areas ∣ p.width)
    (hnext : p.next (p.width - 1) (p.areas - 1) < p.areas) :
    -1 ≤ p.calibrationLeftEdge ∧ p.width + p.areaLength / 4 ≤ intMax := by
  have hlengthPos := areaLength_pos h hareas hpos hfits hdvd
  have hle : p.areaLength ≤ p.width := by
    rw [h.areaLength_eq hpos.le hfits]
    exact Int.ediv_le_self _ hpos.le
  have hbefore : (p.areas - 1) * p.areaLength = p.width - p.areaLength := by
    rw [sub_mul, one_mul, h.areas_mul hpos.le hfits hdvd]
  have hsegmentLeft : (p.segment (p.areas - 1)).left ≤ p.width - 1 := by
    rw [intMax_eq] at hfits
    rw [segment_left, mulInt, hbefore, wrapInt_of_fits (by omega) (by omega), subInt,
      h.overlap_eq hlengthPos.le, wrapInt_of_fits (by omega) (by omega)]
    omega
  have hsegmentRight : p.width - 1 ≤ (p.segment (p.areas - 1)).right := by
    by_contra hlt
    rw [next, follow_of_gt hsegmentLeft (not_le.mp hlt)] at hnext
    omega
  rw [segment_last_right h hareas hpos.le hfits hdvd, le_min_iff] at hsegmentRight
  obtain ⟨hedge, hend⟩ := hsegmentRight
  constructor
  · unfold width at hedge
    omega
  · by_contra hgt
    rw [intMax_eq] at hgt hfits
    rw [wrapInt_of_gt (by omega) (by omega)] at hend
    omega

/-- The last segment has to reach to the last pixel. -/
theorem last_of_follows (h : p.Calibrated) (hareas : 1 ≤ p.areas)
    (hedges : p.calibrationLeftEdge < p.calibrationRightEdge) (hfits : p.width ≤ intMax)
    (hright : 1 ≤ p.calibrationRightEdge) (hdvd : p.areas ∣ p.width)
    (hsafe : ∀ lr, p.Asserted lr → p.Follows (p.offset lr)) :
    -1 ≤ p.calibrationLeftEdge ∧ p.width + p.areaLength / 4 ≤ intMax := by
  have hpos : 0 < p.width := by
    unfold width
    omega
  have hlengthPos := areaLength_pos h hareas hpos hfits hdvd
  have hbefore : (p.areas - 1) * p.areaLength = p.width - p.areaLength := by
    rw [sub_mul, one_mul, h.areas_mul hpos.le hfits hdvd]
  have hlast := hsafe _ (asserted_lastBox hedges)
  rw [offset_lastBox hedges hfits, if_pos hright] at hlast
  have hindex : (p.width - 1).tdiv p.areaLength = p.areas - 1 := by
    have hlt := hlast.lt
    rw [Int.tdiv_eq_ediv_of_nonneg (by omega)] at hlt ⊢
    have hge : p.areas - 1 ≤ (p.width - 1) / p.areaLength :=
      Int.le_ediv_of_mul_le hlengthPos (by omega)
    omega
  have hnext := hlast.next_lt
  rw [hindex] at hnext
  exact last_of_next h hareas hpos hfits hdvd hnext

end TeacherPtz

/-- A calibration of which every run comes to areas only fits. -/
theorem fit_of_indexesInRange {p : TeacherPtz} (h : p.Calibrated) (hareas : 1 ≤ p.areas)
    (hleft : FitsInt p.calibrationLeftEdge) (hright : FitsInt p.calibrationRightEdge)
    (hedges : p.calibrationLeftEdge < p.calibrationRightEdge) (hlast : p.lastAreaIndex = -1)
    (hrange : ∀ events, (∀ e ∈ events, e.Allowed p) → IndexesInRange p events) :
    AreasFit p := by
  have hsafe : ∀ lr, p.Asserted lr → p.Follows (p.offset lr) := fun lr hlr =>
    TeacherPtz.follows_of_inRange h hlast hlr (hrange _ (allowed_twice hlr))
  have hfits := TeacherPtz.width_le_of_follows h hareas hleft hright hedges hsafe
  have hone := TeacherPtz.right_of_follows h hareas hedges hfits hsafe
  have hdvd := TeacherPtz.divides_of_follows h hareas hedges hfits hone hsafe
  obtain ⟨hedge, hend⟩ :=
    TeacherPtz.last_of_follows h hareas hedges hfits hone hdvd hsafe
  have hpos : 0 ≤ p.width := by
    unfold TeacherPtz.width
    omega
  rw [h.areaLength_eq hpos hfits] at hend
  exact ⟨hedge, hone, hdvd, hend⟩

/-- From the constructor on, and whatever is detected between the edges, the area index
stays among the areas exactly when the calibration fits. -/
theorem indexesInRange_iff (getValue : CStr → Option CStr) (hori : ℤ → ℤ)
    (hareas : 1 ≤ (TeacherPtz.create getValue hori).areas)
    (hedges : (TeacherPtz.create getValue hori).calibrationLeftEdge <
      (TeacherPtz.create getValue hori).calibrationRightEdge) :
    (∀ events, (∀ e ∈ events, e.Allowed (TeacherPtz.create getValue hori)) →
        IndexesInRange (TeacherPtz.create getValue hori) events) ↔
      AreasFit (TeacherPtz.create getValue hori) := by
  obtain ⟨areas, edges, hcreate, hfits, hleft, hright⟩ := create_eq getValue hori
  rw [hcreate] at hareas hedges ⊢
  have h := TeacherPtz.calibrated_ofEdges hfits edges hori
  constructor
  · exact fit_of_indexesInRange h hareas hleft hright hedges rfl
  · intro hfit events hevents
    exact indexesInRange_of_fit h hfit hareas (sub_pos.mpr hedges) (Or.inl rfl) hevents

/-- A configuration with these points and otherwise nothing but a small picture. -/
def smallPicture (points : String) (key : CStr) : Option CStr :=
  if key = calibrationData2 then some (.ofString points)
  else if key = .ofString "video_width" then some (.ofString "8")
  else none

theorem create_smallPicture :
    (TeacherPtz.create (smallPicture "0,0;10,0;10,4;0,4;") id).areas = 3 ∧
      (TeacherPtz.create (smallPicture "0,0;10,0;10,4;0,4;") id).calibrationLeftEdge = 0 ∧
      (TeacherPtz.create (smallPicture "0,0;10,0;10,4;0,4;") id).calibrationRightEdge = 10 := by
  decide +kernel

theorem indexesInRange_iff_smallPicture :
    (∀ events,
        (∀ e ∈ events, e.Allowed (TeacherPtz.create (smallPicture "0,0;9,0;9,4;0,4;") id)) →
        IndexesInRange (TeacherPtz.create (smallPicture "0,0;9,0;9,4;0,4;") id) events) ↔
      AreasFit (TeacherPtz.create (smallPicture "0,0;9,0;9,4;0,4;") id) :=
  indexesInRange_iff (smallPicture "0,0;9,0;9,4;0,4;") id (by decide +kernel) (by decide +kernel)

/-- Three areas of a width of ten: a teacher at the right edge is in the fourth one. -/
theorem not_indexesInRange :
    ¬ ∀ (getValue : CStr → Option CStr) (hori : ℤ → ℤ),
      1 ≤ (TeacherPtz.create getValue hori).areas →
      (TeacherPtz.create getValue hori).calibrationLeftEdge <
        (TeacherPtz.create getValue hori).calibrationRightEdge →
      ∀ events, (∀ e ∈ events, e.Allowed (TeacherPtz.create getValue hori)) →
        IndexesInRange (TeacherPtz.create getValue hori) events := by
  intro h
  obtain ⟨hareas, hleft, hright⟩ := create_smallPicture
  have hrange := h (smallPicture "0,0;10,0;10,4;0,4;") id (by omega) (by omega)
  have hcalibrated : (TeacherPtz.create (smallPicture "0,0;10,0;10,4;0,4;") id).Calibrated :=
    TeacherPtz.calibrated_ofEdges (by decide +kernel) _ _
  have hfit := fit_of_indexesInRange hcalibrated (by omega) (by rw [hleft]; decide)
    (by rw [hright]; decide) (by omega) rfl hrange
  have hdvd := hfit.divides
  rw [TeacherPtz.width, hareas, hleft, hright] at hdvd
  revert hdvd
  decide

end LibSimple.Teacher
