import LibSimple.Teacher.Config
import Mathlib.Data.Rat.Defs

/-!
# The analysis of the teacher's walk

`data_vec` and `data_range` of `TeacherAnalyze` on the points of its window, and the
decision of `state_fullview` that rests on them.  A point with the coordinate `-1` is one
where nothing was detected.
-/

namespace LibSimple.Teacher

open CLang

/-! ## The loops -/

/-- `cv::Rect` -/
structure Rect where
  x : ℤ
  y : ℤ
  width : ℤ
  height : ℤ
  deriving DecidableEq

/-- `it->pt.x != -1` -/
def isValidPoint (pt : CvPoint) : Bool := pt.x.val != -1

/-- The variables of `data_vec`: the two sums, and the last valid point once there is
one. -/
structure VecState where
  h : ℤ
  v : ℤ
  started : Option CvPoint

/-- One round of `data_vec`. -/
def vecStep (s : VecState) (pt : CvPoint) : VecState :=
  if isValidPoint pt then
    match s.started with
    | none => { s with started := some pt }
    | some last =>
        { h := addInt s.h (subInt pt.x.val last.x.val)
          v := addInt s.v (subInt pt.y.val last.y.val)
          started := some pt }
  else s

/-- `data_vec` -/
def dataVec (data : List CvPoint) : ℤ × ℤ :=
  let s := data.foldl vecStep ⟨0, 0, none⟩
  (s.h, s.v)

/-- The variables of `data_range`; `r`, `t` and `b` mean nothing before the first valid
point. -/
structure RangeState where
  l : ℤ
  r : ℤ
  t : ℤ
  b : ℤ
  range : Rect

/-- One round of `data_range`. -/
def rangeStep (s : RangeState) (pt : CvPoint) : RangeState :=
  if isValidPoint pt then
    if s.l = -1 then
      { s with l := pt.x.val, r := pt.x.val, t := pt.y.val, b := pt.y.val }
    else
      let l := min pt.x.val s.l
      let r := max pt.x.val s.r
      let t := min pt.y.val s.t
      let b := max pt.y.val s.b
      ⟨l, r, t, b, ⟨l, t, subInt r l, subInt b t⟩⟩
  else s

/-- `data_range`, with the variables that are not set at `0`. -/
def dataRange (data : List CvPoint) : Rect :=
  (data.foldl rangeStep ⟨-1, 0, 0, 0, ⟨-1, -1, 0, 0⟩⟩).range

/-! ## The decision -/

/-- `TeacherTracingResult` -/
inductive TeacherTracingResult
  | ok
  | noEnonghPts
  | noEnoughValidPts
  | tooOldValidPt
  deriving DecidableEq

/-- `TeacherImplRunningState` -/
inductive TeacherImplRunningState
  | fullview
  | toClose
  | closeview
  deriving DecidableEq

/-- What `state_fullview` reads of the `TeacherTracingInfo`, apart from what comes from
`data_range` and `data_vec`: the result, the time between the first valid point and the
last one, and the size of the range in the picture of the tracing camera. -/
structure TracingInfo where
  result : TeacherTracingResult
  validDuration : ℚ
  rcTraceWidth : ℤ
  rcTraceHeight : ℤ

/-- The settings that `state_fullview` reads. -/
structure Settings where
  analyzeInterval : ℚ
  stableWidth : ℤ
  stableHeight : ℤ

/-- `state_fullview`, as far as the next state is concerned, which has been set to the
current one before. -/
def stateFullview (settings : Settings) (info : TracingInfo) (data : List CvPoint) :
    TeacherImplRunningState :=
  let rcDetect := dataRange data
  let (hvec, vvec) := dataVec data
  if info.result = .ok then
    if info.validDuration ≥ settings.analyzeInterval ∧
        info.rcTraceWidth < settings.stableWidth ∧ info.rcTraceHeight < settings.stableHeight ∧
        hvec < (mulInt rcDetect.width 2).tdiv 3 ∧ vvec ≤ rcDetect.height then
      .toClose
    else .fullview
  else .fullview

/-! ## What the loops compute -/

/-- The points where something was detected. -/
def validPoints (data : List CvPoint) : List CvPoint := data.filter isValidPoint

/-- A loop that passes over the other points only sees the valid ones. -/
theorem foldl_validPoints {S : Type} {step : S → CvPoint → S}
    (hskip : ∀ s pt, ¬ isValidPoint pt = true → step s pt = s) (data : List CvPoint) (s : S) :
    data.foldl step s = (validPoints data).foldl step s := by
  rw [validPoints, List.foldl_filter]
  congr 1
  funext s pt
  split_ifs with hpt
  · rfl
  · exact hskip s pt hpt

theorem foldl_vecStep (data : List CvPoint) (s : VecState) :
    data.foldl vecStep s = (validPoints data).foldl vecStep s :=
  foldl_validPoints (fun _ _ hpt => if_neg hpt) data s

theorem foldl_rangeStep (data : List CvPoint) (s : RangeState) :
    data.foldl rangeStep s = (validPoints data).foldl rangeStep s :=
  foldl_validPoints (fun _ _ hpt => if_neg hpt) data s

/-- How far a coordinate is from the first point to the last. -/
def moved (f : CvPoint → ℤ) : List CvPoint → ℤ
  | [] => 0
  | first :: pts => f (pts.getLastD first) - f first

/-- The smallest value of a coordinate. -/
def lowest (f : CvPoint → ℤ) : List CvPoint → ℤ
  | [] => 0
  | first :: pts => pts.foldl (fun l pt => min (f pt) l) (f first)

/-- The largest value of a coordinate. -/
def highest (f : CvPoint → ℤ) : List CvPoint → ℤ
  | [] => 0
  | first :: pts => pts.foldl (fun r pt => max (f pt) r) (f first)

def xOf (pt : CvPoint) : ℤ := pt.x.val

def yOf (pt : CvPoint) : ℤ := pt.y.val

theorem isValidPoint_iff {pt : CvPoint} : isValidPoint pt = true ↔ xOf pt ≠ -1 := by
  rw [isValidPoint, xOf, bne_iff_ne]

theorem foldl_vecStep_eq {first last : CvPoint} {pts : List CvPoint}
    (hvalid : ∀ pt ∈ pts, isValidPoint pt = true) :
    pts.foldl vecStep
        ⟨wrapInt (xOf last - xOf first), wrapInt (yOf last - yOf first), some last⟩ =
      ⟨wrapInt (xOf (pts.getLastD last) - xOf first),
        wrapInt (yOf (pts.getLastD last) - yOf first), some (pts.getLastD last)⟩ := by
  induction pts generalizing last with
  | nil => rfl
  | cons pt pts ih =>
      rw [List.forall_mem_cons] at hvalid
      have hsum : ∀ a b c : ℤ, addInt (wrapInt (b - a)) (subInt c b) = wrapInt (c - a) := by
        intro a b c
        rw [addInt, subInt, wrapInt, wrapInt, wrapInt, Int.bmod_add_bmod, Int.add_bmod_bmod]
        congr 1
        omega
      have hstep : vecStep ⟨wrapInt (xOf last - xOf first), wrapInt (yOf last - yOf first),
          some last⟩ pt =
            ⟨wrapInt (xOf pt - xOf first), wrapInt (yOf pt - yOf first), some pt⟩ := by
        rw [vecStep, if_pos hvalid.1, ← hsum (xOf first) (xOf last) (xOf pt),
          ← hsum (yOf first) (yOf last) (yOf pt)]
        rfl
      rw [List.foldl_cons, hstep, ih hvalid.2, List.getLastD_cons]

/-- The differences of `data_vec` add up to the difference of the last and the first. -/
theorem dataVec_eq (data : List CvPoint) :
    dataVec data =
      (wrapInt (moved xOf (validPoints data)), wrapInt (moved yOf (validPoints data))) := by
  have hvalid : ∀ pt ∈ validPoints data, isValidPoint pt = true := fun pt hpt =>
    (List.mem_filter.mp hpt).2
  rw [dataVec, foldl_vecStep]
  cases hpts : validPoints data with
  | nil => rfl
  | cons first pts =>
      rw [hpts, List.forall_mem_cons] at hvalid
      have hfirst : vecStep ⟨0, 0, none⟩ first =
          ⟨wrapInt (xOf first - xOf first), wrapInt (yOf first - yOf first), some first⟩ := by
        rw [vecStep, if_pos hvalid.1, sub_self, sub_self]
        rfl
      rw [List.foldl_cons, hfirst, foldl_vecStep_eq hvalid.2]
      rfl

theorem foldl_rangeStep_eq {pts : List CvPoint} (hvalid : ∀ pt ∈ pts, isValidPoint pt = true)
    {s : RangeState} (hs : s.l ≠ -1) (hrange : pts = [] → s.range =
      ⟨s.l, s.t, subInt s.r s.l, subInt s.b s.t⟩) :
    (pts.foldl rangeStep s).range =
      ⟨pts.foldl (fun l pt => min (xOf pt) l) s.l, pts.foldl (fun t pt => min (yOf pt) t) s.t,
        subInt (pts.foldl (fun r pt => max (xOf pt) r) s.r)
          (pts.foldl (fun l pt => min (xOf pt) l) s.l),
        subInt (pts.foldl (fun b pt => max (yOf pt) b) s.b)
          (pts.foldl (fun t pt => min (yOf pt) t) s.t)⟩ := by
  induction pts generalizing s with
  | nil => exact hrange rfl
  | cons pt pts ih =>
      rw [List.forall_mem_cons] at hvalid
      have hx : xOf pt ≠ -1 := isValidPoint_iff.mp hvalid.1
      have hmin : min (xOf pt) s.l ≠ -1 := by
        rcases min_choice (xOf pt) s.l with h | h
        · rwa [h]
        · rwa [h]
      rw [List.foldl_cons, rangeStep, if_pos hvalid.1, if_neg hs]
      exact ih hvalid.2 hmin fun _ => rfl

/-- The range that `data_range` gives for two valid points or more. -/
theorem dataRange_eq {data : List CvPoint} (htwo : 2 ≤ (validPoints data).length) :
    dataRange data =
      ⟨lowest xOf (validPoints data), lowest yOf (validPoints data),
        subInt (highest xOf (validPoints data)) (lowest xOf (validPoints data)),
        subInt (highest yOf (validPoints data)) (lowest yOf (validPoints data))⟩ := by
  have hvalid : ∀ pt ∈ validPoints data, isValidPoint pt = true := fun pt hpt =>
    (List.mem_filter.mp hpt).2
  rw [dataRange, foldl_rangeStep]
  cases hpts : validPoints data with
  | nil =>
      rw [hpts] at htwo
      exact absurd htwo (by decide)
  | cons first pts =>
      rw [hpts, List.forall_mem_cons] at hvalid
      rw [hpts, List.length_cons] at htwo
      have hx : xOf first ≠ -1 := isValidPoint_iff.mp hvalid.1
      rw [List.foldl_cons, rangeStep, if_pos hvalid.1, if_pos rfl]
      refine foldl_rangeStep_eq hvalid.2 hx fun hnil => ?_
      rw [hnil] at htwo
      exact absurd htwo (by decide)

end LibSimple.Teacher
