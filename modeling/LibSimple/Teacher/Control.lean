import LibSimple.Ptz.Oper
import LibSimple.Support.EventRuns
import LibSimple.Teacher.AreaRange
import LibSimple.Teacher.Duration

/-!
# How the camera follows the teacher

`set_detected_data` of `TeacherPtz`, which is told of every frame: it turns the camera to
the area of the teacher, says when the picture is stable, and sends the camera back when
the teacher has been lost for long enough.
-/

namespace LibSimple.Teacher

open CLang EventRuns

/-- The settings of `TracePolicy` that `set_detected_data` asks for. -/
structure TracePolicy where
  timeToCloseview : ℚ
  timeToFullviewAfterNoTarget : ℚ
  timeToResetPtz : ℚ

/-- The members of `TeacherPtz`; those for the areas have a structure of their own, and of
the device it is only asked whether there is one. -/
structure Tracker where
  ptz : Bool
  areas : TeacherPtz
  ptzLeft : ℤ
  ptzRight : ℤ
  ptzV : ℤ
  ptzZ : ℤ
  timeoutChker : AreaDuration
  reseted : Bool
  stable : Bool
  runningState : ℤ

/-- `atoi(cfg_->get_value(key, value))` -/
def intValue (getValue : CStr → Option CStr) (key value : String) : ℤ :=
  atoi ((getValue (.ofString key)).getD (.ofString value))

namespace Tracker

/-- The constructor. -/
def create (getValue : CStr → Option CStr) (ptz : Bool) (hori : ℤ → ℤ) : Tracker where
  ptz := ptz
  areas := .create getValue hori
  ptzLeft :=
    let ptzLeft := intValue getValue "ptz_left" "0"
    if ptzLeft = 0 then -400 else ptzLeft
  ptzRight :=
    let ptzRight := intValue getValue "ptz_right" "0"
    if ptzRight = 0 then 400 else ptzRight
  ptzV := intValue getValue "ptz_init_y" "0"
  ptzZ := intValue getValue "ptz_init_z" "5000"
  timeoutChker := .create
  reseted := false
  stable := false
  runningState := 0

/-- `set_running_state` -/
def setRunningState (t : Tracker) (state : ℤ) : Tracker :=
  let t := { t with runningState := state }
  if t.runningState ≠ 0 then { t with reseted := false } else t

/-- `Ptz::reset_ptz`: the tasks that it adds. -/
def resetPtz (getValue : CStr → Option CStr) (ptz : Bool) : List Ptz.Task :=
  if ptz then
    let h := intValue getValue "ptz_init_x" "0"
    let v := intValue getValue "ptz_init_y" "0"
    let z := intValue getValue "ptz_init_z" "5000"
    (Ptz.taskPtzReset ptz h v z).toList
  else []

/-- `area_hori_[i]`; `none` is an access out of range. -/
def areaHori? (p : TeacherPtz) (i : ℤ) : Option ℤ :=
  if 0 ≤ i then p.areaHori[i.toNat]? else none

/-- The task that `set_detected_data` adds when the area has changed; `none` when there is
no such area. -/
def turn (t : Tracker) (index : ℤ) (changed : Bool) : Option (List Ptz.Task) :=
  if changed && t.ptz then
    (areaHori? t.areas index).map fun h => (Ptz.taskPtzSetPosition t.ptz h t.ptzV t.ptzZ).toList
  else some []

/-- `is_stable` -/
def isStable (t : Tracker) : Bool := t.stable

/-- `set_detected_data` without `smooth_`, with the tasks that it adds; `none` when
`get_area_from_data` is undefined or its area does not exist. -/
def setDetectedData (policy : TracePolicy) (getValue : CStr → Option CStr) (t : Tracker)
    (data : DetectedData) : Option (Tracker × List Ptz.Task) :=
  let t :=
    { t with
      timeoutChker :=
        if data.valid then t.timeoutChker.setValidStamp data.stamp
        else t.timeoutChker.setInvalidStamp data.stamp }
  if t.timeoutChker.isValid then
    let t := { t with reseted := false }
    if data.valid then do
      let (areas, changed) ← t.areas.getAreaFromData data
      let index := areas.lastAreaIndex
      let t := { t with areas := areas, timeoutChker := t.timeoutChker.setArea index }
      let tasks ← t.turn index changed
      some ({ t with
        stable := decide (t.timeoutChker.validDurationArea > policy.timeToCloseview) }, tasks)
    else some (t, [])
  else
    let t :=
      if t.timeoutChker.invalidDuration > policy.timeToFullviewAfterNoTarget then
        { t with stable := false }
      else t
    if t.timeoutChker.invalidDuration > policy.timeToResetPtz then
      let t := { t with stable := false }
      if t.runningState = 0 then
        if !t.reseted then
          let t := { t with reseted := true }
          let tasks := resetPtz getValue t.ptz
          some ({ t with areas := { t.areas with lastAreaIndex := -1 } }, tasks)
        else some (t, [])
      else some (t, [])
    else some (t, [])

/-- What a tracker is told: a frame, with the configuration as it stands then, or a call
of `set_running_state`. -/
inductive Input
  | detected (getValue : CStr → Option CStr) (data : DetectedData)
  | runningState (state : ℤ)

/-- A call, with the tasks that it adds. -/
def step (policy : TracePolicy) (t : Tracker) : Input → Option (Tracker × List Ptz.Task)
  | .detected getValue data => t.setDetectedData policy getValue data
  | .runningState state => some (t.setRunningState state, [])

/-- A call in a run. -/
abbrev Notice := EventRuns.Event Tracker Input Ptz.Task

/-! ## What one call does -/

/-- The sample in a frame. -/
def sample (data : DetectedData) : Sample := ⟨data.valid, data.stamp⟩

/-- The task that turns the camera to area `i`. -/
def aimedAt (t : Tracker) (i : ℤ) (task : Ptz.Task) : Prop :=
  ∃ h, areaHori? t.areas i = some h ∧ task = .reset h t.ptzV t.ptzZ

/-- What `set_detected_data` does with a frame: the teacher is found, missing for a
moment, lost, or lost for so long that the camera goes back. -/
inductive Outcome (policy : TracePolicy) (getValue : CStr → Option CStr) (t : Tracker)
    (data : DetectedData) : Tracker → List Ptz.Task → Prop
  | found {areas changed tasks}
      (hvalid : data.valid = true) (hisValid : (t.timeoutChker.stamped (sample data)).valid = true)
      (hareas : t.areas.getAreaFromData data = some (areas, changed))
      (htasks : if changed && t.ptz then
          ∃ task, aimedAt { t with areas := areas } areas.lastAreaIndex task ∧ tasks = [task]
        else tasks = []) :
      Outcome policy getValue t data
        { t with
          areas := areas
          timeoutChker := (t.timeoutChker.stamped (sample data)).setArea areas.lastAreaIndex
          reseted := false
          stable := decide (((t.timeoutChker.stamped (sample data)).setArea
            areas.lastAreaIndex).validDurationArea > policy.timeToCloseview) } tasks
  | missing (hvalid : data.valid = false)
      (hisValid : (t.timeoutChker.stamped (sample data)).valid = true) :
      Outcome policy getValue t data
        { t with timeoutChker := t.timeoutChker.stamped (sample data), reseted := false } []
  | lost {stable : Bool} (hisValid : (t.timeoutChker.stamped (sample data)).valid = false)
      (hstable : stable = true → t.stable = true ∧
        (t.timeoutChker.stamped (sample data)).invalidDuration ≤
          policy.timeToFullviewAfterNoTarget)
      (hreset : (t.timeoutChker.stamped (sample data)).invalidDuration ≤ policy.timeToResetPtz ∨
        t.runningState ≠ 0 ∨ t.reseted = true) :
      Outcome policy getValue t data
        { t with timeoutChker := t.timeoutChker.stamped (sample data), stable := stable } []
  | reset (hisValid : (t.timeoutChker.stamped (sample data)).valid = false)
      (hlong : policy.timeToResetPtz < (t.timeoutChker.stamped (sample data)).invalidDuration)
      (hrunning : t.runningState = 0) (hreseted : t.reseted = false) :
      Outcome policy getValue t data
        { t with
          areas := t.areas.standing (-1)
          timeoutChker := t.timeoutChker.stamped (sample data)
          reseted := true
          stable := false } (resetPtz getValue t.ptz)

variable {policy : TracePolicy} {getValue : CStr → Option CStr} {t t' : Tracker}
  {data : DetectedData} {tasks : List Ptz.Task}

theorem turn_eq_some {index : ℤ} {changed : Bool} :
    t.turn index changed = some tasks ↔
      if changed && t.ptz then ∃ task, aimedAt t index task ∧ tasks = [task] else tasks = [] := by
  rw [turn]
  split_ifs with hturn
  · rw [(Bool.and_eq_true_iff.mp hturn).2, Option.map_eq_some_iff]
    constructor
    · rintro ⟨h, hhori, rfl⟩
      exact ⟨_, ⟨h, hhori, rfl⟩, rfl⟩
    · rintro ⟨_, ⟨h, hhori, rfl⟩, rfl⟩
      exact ⟨h, hhori, rfl⟩
  · rw [Option.some_inj, eq_comm]

theorem setDetectedData_outcome
    (h : t.setDetectedData policy getValue data = some (t', tasks)) :
    Outcome policy getValue t data t' tasks := by
  have hstamped : (if data.valid then t.timeoutChker.setValidStamp data.stamp
      else t.timeoutChker.setInvalidStamp data.stamp) = t.timeoutChker.stamped (sample data) := rfl
  rw [setDetectedData, hstamped] at h
  dsimp only at h
  cases hisValid : (t.timeoutChker.stamped (sample data)).valid with
  | true =>
      rw [AreaDuration.isValid, hisValid, if_pos rfl] at h
      cases hvalid : data.valid with
      | true =>
          rw [hvalid, if_pos rfl] at h
          obtain ⟨⟨areas, changed⟩, hareas, h⟩ := Option.bind_eq_some_iff.mp h
          obtain ⟨tasks', htasks, h⟩ := Option.bind_eq_some_iff.mp h
          cases h
          exact .found hvalid hisValid hareas (turn_eq_some.mp htasks)
      | false =>
          rw [hvalid, if_neg Bool.false_ne_true] at h
          cases h
          exact .missing hvalid hisValid
  | false =>
      rw [AreaDuration.isValid, hisValid, if_neg Bool.false_ne_true] at h
      -- The first comparison only matters for `stable_`.
      obtain ⟨stable, hstable, hfull⟩ : ∃ stable : Bool,
          (stable = true → t.stable = true ∧
            (t.timeoutChker.stamped (sample data)).invalidDuration ≤
              policy.timeToFullviewAfterNoTarget) ∧
          (if (t.timeoutChker.stamped (sample data)).invalidDuration >
              policy.timeToFullviewAfterNoTarget then
            { t with timeoutChker := t.timeoutChker.stamped (sample data), stable := false }
            else { t with timeoutChker := t.timeoutChker.stamped (sample data) }) =
              { t with
                timeoutChker := t.timeoutChker.stamped (sample data)
                stable := stable } := by
        by_cases hlong : (t.timeoutChker.stamped (sample data)).invalidDuration >
            policy.timeToFullviewAfterNoTarget
        · exact ⟨false, nofun, if_pos hlong⟩
        · exact ⟨t.stable, fun h => ⟨h, not_lt.mp hlong⟩, if_neg hlong⟩
      rw [hfull] at h
      dsimp only at h
      split_ifs at h with hlong hrunning hreseted
      · cases h
        exact .reset hisValid hlong hrunning (by simpa using hreseted)
      · cases h
        exact .lost hisValid nofun (.inr (.inr (by simpa using hreseted)))
      · cases h
        exact .lost hisValid nofun (.inr (.inl hrunning))
      · cases h
        exact .lost hisValid hstable (.inl (not_lt.mp hlong))

end Tracker

end LibSimple.Teacher
