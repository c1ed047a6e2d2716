import LibSimple.Support.Tracking
import LibSimple.Teacher.Config
import Mathlib.Algebra.Order.Ring.Rat

/-!
# The areas of the teacher's platform

`TeacherPtz` cuts the calibrated width into areas and follows the teacher from area to
area.  Each area has a segment, somewhat longer than the area itself, that the teacher
has to leave before the area changes.  The segments count from the calibrated left edge,
but they are cut off at the right edge as it stands in the picture.
-/

namespace LibSimple.Teacher

open CLang

/-! ## The class -/

/-- `Segment` -/
structure Segment where
  left : ℤ
  right : ℤ
  deriving DecidableEq

/-- The fields of `TeacherPtz` for the areas. -/
structure TeacherPtz where
  areas : ℤ
  areaLength : ℤ
  areaOverlapLength : ℤ
  areaHori : List ℤ
  calibrationLeftEdge : ℤ
  calibrationRightEdge : ℤ
  lastAreaIndex : ℤ
  segments : List Segment

/-- One point of a calibration: the edges are moved apart to have it between them. -/
def widen (edges : ℤ × ℤ) (pt : CvPoint) : ℤ × ℤ :=
  (if pt.x.val < edges.1 then pt.x.val else edges.1,
    if pt.x.val > edges.2 then pt.x.val else edges.2)

/-- `load_calibration_edge`: the left and the right edge, both of which start at
`middle`. -/
def loadCalibrationEdge (getValue : CStr → Option CStr) (middle : ℤ) : ℤ × ℤ :=
  let points := scanPoints (getValue calibrationData2) ++ scanPoints (getValue calibrationData3)
  points.foldl widen (middle, middle)

namespace TeacherPtz

/-- A segment of `calc_calibration_area`. -/
def segment (p : TeacherPtz) (i : ℤ) : Segment :=
  let left := subInt (mulInt i p.areaLength) p.areaOverlapLength
  let right := addInt (mulInt (addInt i 1) p.areaLength) p.areaOverlapLength
  ⟨if left < 0 then 0 else left,
    if right > p.calibrationRightEdge then p.calibrationRightEdge else right⟩

/-- `calc_calibration_area`; `hori` gives the position of the platform for a place in the
picture. -/
def calcCalibrationArea (p : TeacherPtz) (hori : ℤ → ℤ) : TeacherPtz :=
  { p with
    areaHori := (List.range p.areas.toNat).map fun i : ℕ =>
      hori (p.calibrationLeftEdge + mulInt i p.areaLength + p.areaLength.tdiv 2)
    segments := (List.range p.areas.toNat).map fun i : ℕ => p.segment i }

/-- The constructor, from the calibrated edges on. -/
def ofEdges (areas : ℤ) (edges : ℤ × ℤ) (hori : ℤ → ℤ) : TeacherPtz :=
  let areaLength := (subInt edges.2 edges.1).tdiv areas
  calcCalibrationArea
    { areas := areas
      areaLength := areaLength
      areaOverlapLength := areaLength.tdiv 4
      areaHori := []
      calibrationLeftEdge := edges.1
      calibrationRightEdge := edges.2
      lastAreaIndex := -1
      segments := [] } hori

/-- The constructor `TeacherPtz::TeacherPtz`, with `get_value` of the configuration. -/
def create (getValue : CStr → Option CStr) (hori : ℤ → ℤ) : TeacherPtz :=
  let videoWidth := atoi ((getValue (.ofString "video_width")).getD (.ofString "960"))
  let areas := atoi ((getValue (.ofString "teacher_area")).getD (.ofString "3"))
  let areas := if areas = 0 then 3 else areas
  ofEdges areas (loadCalibrationEdge getValue (videoWidth.tdiv 2)) hori

/-- `segments_[i]`; `none` is an access out of range. -/
def segments? (p : TeacherPtz) (i : ℤ) : Option Segment :=
  if 0 ≤ i then p.segments[i.toNat]? else none

/-- `area_changed`, which returns `last_area_index_`, and whether it has changed; `none`
when it divides by zero, its assertion fails or it leaves `segments_`. -/
def areaChanged (p : TeacherPtz) (offset : ℤ) : Option (TeacherPtz × Bool) :=
  if p.lastAreaIndex = -1 then
    if p.areaLength = 0 then none
    else
      let index := offset.tdiv p.areaLength
      if index < p.areas then some ({ p with lastAreaIndex := index }, true) else none
  else do
    let s ← p.segments? p.lastAreaIndex
    if offset < s.left then
      some ({ p with lastAreaIndex := subInt p.lastAreaIndex 1 }, true)
    else if offset > s.right then
      some ({ p with lastAreaIndex := addInt p.lastAreaIndex 1 }, true)
    else some (p, false)

end TeacherPtz

/-! ## Detections -/

/-- `Pos`, a box that was detected.  `refineSegments` makes it of a rectangle of whole
pixels, `rect.x` and `rect.x + rect.width`, so the two `double`s are `int`s. -/
structure Pos where
  left : ℤ
  right : ℤ
  deriving DecidableEq

/-- `DetectedData` -/
structure DetectedData where
  valid : Bool
  stamp : ℚ
  poss : List Pos

namespace TeacherPtz

/-- The assertion on the box in `get_area_from_data`. -/
def Asserted (p : TeacherPtz) (lr : Pos) : Prop :=
  p.calibrationLeftEdge ≤ lr.left ∧ lr.right ≤ p.calibrationRightEdge ∧ lr.left < lr.right

instance (p : TeacherPtz) (lr : Pos) : Decidable (p.Asserted lr) :=
  inferInstanceAs (Decidable (_ ∧ _ ∧ _))

/-- The offset that `get_area_from_data` hands on.  A `double` holds the sum of two `int`s
and its half as they are, and the conversion cuts off what is behind the point. -/
def offset (p : TeacherPtz) (lr : Pos) : ℤ :=
  subInt ((lr.left + lr.right).tdiv 2) p.calibrationLeftEdge

/-- `get_area_from_data`; `none` also when one of its assertions fails. -/
def getAreaFromData (p : TeacherPtz) (d : DetectedData) : Option (TeacherPtz × Bool) :=
  if d.valid then
    match d.poss with
    | [] => none
    | lr :: _ => if p.Asserted lr then p.areaChanged (p.offset lr) else none
  else none

end TeacherPtz

end LibSimple.Teacher
