import LibSimple.Teacher.Analyze
import LibSimple.Teacher.Control

/-!
# The tracing thread

`TeacherWorkingThread`: a thread that is woken by new detections and by tasks, looks at
the detections of the last seconds, and takes the picture from the full view to a close
view and back.  The conversion between the pictures of the two cameras is done in floating
point, by code that is not part of the sources, and stands for itself.
-/

namespace LibSimple.Teacher

open CLang EventRuns

/-! ## The window of detections -/

/-- `TeacherDetected`, of which the size of head and shoulders is never read. -/
structure TeacherDetected where
  stamp : ℚ
  pt : CvPoint
  deriving DecidableEq

/-- `data_first_valid` -/
def dataFirstValid (data : List TeacherDetected) : Option TeacherDetected :=
  data.find? fun d => isValidPoint d.pt

/-- `data_last_valid` -/
def dataLastValid (data : List TeacherDetected) : Option TeacherDetected :=
  data.reverse.find? fun d => isValidPoint d.pt

/-- What `data_duration` leaves in its argument. -/
def dataValidDuration (data : List TeacherDetected) : ℚ :=
  if data.length ≥ 2 then
    match dataFirstValid data, dataLastValid data with
    | some first, some last => last.stamp - first.stamp
    | _, _ => 0
  else 0

/-- `data_duration` -/
def dataDuration (data : List TeacherDetected) : ℚ :=
  match data.head?, data.getLast? with
  | some front, some back => if data.length ≥ 2 then back.stamp - front.stamp else 0
  | _, _ => 0

/-- `data_valided` -/
def dataValided (data : List TeacherDetected) : ℕ × ℕ :=
  (data.countP fun d => isValidPoint d.pt, data.countP fun d => !isValidPoint d.pt)

/-- `update_data`, with the window that it keeps; `none` when its assertion fails. -/
def updateData (duration : ℚ) (data : List TeacherDetected) :
    Option (List TeacherDetected × Bool) :=
  if data.length ≥ 2 then do
    let last ← data.getLast?
    let first := last.stamp - duration - 1
    let window := data.filter fun d => d.stamp ≥ first
    some (window, decide (dataDuration window ≥ duration))
  else none

/-! ## The thread -/

/-- The settings of the thread. -/
structure TracingSettings extends Settings where
  timeToStopTracing : ℚ

/-- Where the tracing camera says that it points, and its zoom. -/
structure Reading where
  h : ℤ
  v : ℤ
  z : ℤ
  deriving DecidableEq

/-- `Coordinate_Conversion`, for a camera in this position: `det2tra`, with a rectangle and
a point in the picture of the tracing camera, and the position for `set_ptz_abs_pos`. -/
structure Conversion where
  det2tra : Option Reading → Rect → CvPoint → Rect × ℤ × ℤ
  pointCov : Option Reading → CvPoint → ℤ × ℤ

/-- The members of `TeacherWorkingThread`.  Of `trace_info_` it keeps what a later round may
read, `none` as long as it has not been set.  Nothing calls `set_ptz`. -/
structure TeacherWorkingThread where
  ptz : Bool
  state : TeacherImplRunningState
  ptTraceLast : Option (ℤ × ℤ)
  toClose : Option (ℤ × ℤ)
  teacherDetectedData : List TeacherDetected
  tasks : List Ptz.Task
  sem : ℕ
  runningState : ℤ

/-- What a round of the thread gets from outside: the configuration, the time, what stands
in `last_valid_stamp` before it is set, and what the camera says at first and in
`state_toclose`. -/
structure Round where
  getValue : CStr → Option CStr
  curr : ℚ
  lastValidStamp : ℚ
  reading : Reading
  arrived : ℤ × ℤ

namespace TeacherWorkingThread

/-- What comes out of a round: a call of the camera from a state function, or a task that
is executed. -/
inductive Output
  | command (c : Ptz.Command)
  | handle (task : Ptz.Task)
  deriving DecidableEq

/-- `add` -/
def add (t : TeacherWorkingThread) (task : Ptz.Task) : TeacherWorkingThread :=
  { t with tasks := t.tasks ++ [task], sem := t.sem + 1 }

/-- `reset_ptz` -/
def resetPtz (getValue : CStr → Option CStr) (t : TeacherWorkingThread) : TeacherWorkingThread :=
  (Tracker.resetPtz getValue t.ptz).foldl add t

/-- The constructor. -/
def create (getValue : CStr → Option CStr) (ptz : Bool) : TeacherWorkingThread :=
  resetPtz getValue ⟨ptz, .fullview, none, none, [], [], 0, 0⟩

/-- `set_camshift_pt`, with the value of `analyze_duration`. -/
def setCamshiftPt (t : TeacherWorkingThread) (stamp : ℚ) (pt : CvPoint)
    (analyzeDuration : ℚ) : TeacherWorkingThread :=
  let td : TeacherDetected := ⟨stamp, pt⟩
  { t with
    teacherDetectedData := (t.teacherDetectedData ++ [td]).filter fun td =>
      !decide (td.stamp < stamp - analyzeDuration)
    sem := t.sem + 1 }

/-- What `trytrace` makes of the window: whether it is good for anything. -/
def traceResult (settings : TracingSettings) (window : List TeacherDetected) (enough : Bool)
    (r : Round) : TeacherTracingResult :=
  let result := if !enough then .noEnonghPts else .ok
  let lastValidStamp := ((dataLastValid window).map TeacherDetected.stamp).getD r.lastValidStamp
  let result :=
    if r.curr - lastValidStamp > settings.timeToStopTracing then .tooOldValidPt else result
  if result = .ok then
    if (dataValided window).1 < 2 then .noEnoughValidPts else result
  else result

/-- `set_ptz_abs_pos` in `state_fullview`. -/
def setPtzAbsPos (t : TeacherWorkingThread) (position : ℤ × ℤ) :
    TeacherWorkingThread × List Output :=
  if t.ptz then
    ({ t with toClose := some position },
      [.command (.setAbsolutePosition position.1 position.2 30)])
  else (t, [])

/-- `state_fullview`, with `position` for the target's last place. -/
def stateFullview (settings : TracingSettings) (r : Round) (t : TeacherWorkingThread)
    (info : TracingInfo) (points : List CvPoint) (position : ℤ × ℤ) :
    TeacherWorkingThread × List Output :=
  if info.result = .ok then
    match Teacher.stateFullview settings.toSettings info points with
    | .toClose =>
        let (t, outs) := t.setPtzAbsPos position
        ({ t with state := .toClose }, outs)
    | _ => (t, [])
  else if info.result = .tooOldValidPt then (t.resetPtz r.getValue, [])
  else (t, [])

/-- `state_toclose`; `none` when it reads a position that has not been set. -/
def stateToclose (r : Round) (t : TeacherWorkingThread) : Option TeacherWorkingThread :=
  if t.ptz then do
    let (h, v) := r.arrived
    let toClose ← t.toClose
    if |h - toClose.1| < 3 ∧ |v - toClose.2| < 3 then some { t with state := .closeview }
    else some t
  else some { t with state := .fullview }

/-- `state_closeview`; `none` when it reads a point that has not been set. -/
def stateCloseview (settings : TracingSettings) (t : TeacherWorkingThread) :
    Option TeacherWorkingThread := do
  let ptTraceLast ← t.ptTraceLast
  if |ptTraceLast.1| > settings.stableWidth.tdiv 2 then some { t with state := .fullview }
  else some t

/-- The function of the state. -/
def stateFunc (settings : TracingSettings) (r : Round) (t : TeacherWorkingThread)
    (info : TracingInfo) (points : List CvPoint) (position : ℤ × ℤ) :
    Option (TeacherWorkingThread × List Output) :=
  match t.state with
  | .fullview => some (t.stateFullview settings r info points position)
  | .toClose => (t.stateToclose r).map fun t => (t, [])
  | .closeview => (t.stateCloseview settings).map fun t => (t, [])

/-- `trytrace`.  When the data are good for nothing, the members of `trace_info_` but for
`result` are not set, and only those are read that the thread keeps. -/
def trytrace (settings : TracingSettings) (conv : Conversion) (r : Round)
    (t : TeacherWorkingThread) : Option (TeacherWorkingThread × List Output) := do
  let (window, enough) ← updateData settings.analyzeInterval t.teacherDetectedData
  let result := traceResult settings window enough r
  if result = .ok then do
    let last ← dataLastValid window
    let points := window.map TeacherDetected.pt
    let reading := if t.ptz then some r.reading else none
    let (rcTrace, ptTraceLast) := conv.det2tra reading (dataRange points) last.pt
    let info := ⟨result, dataValidDuration window, rcTrace.width, rcTrace.height⟩
    { t with ptTraceLast := some ptTraceLast }.stateFunc settings r info points
      (conv.pointCov reading last.pt)
  else t.stateFunc settings r ⟨result, 0, 0, 0⟩ [] (0, 0)

/-- `next`, and the execution of what it returns. -/
def execNext (t : TeacherWorkingThread) (outs : List Output) :
    TeacherWorkingThread × List Output :=
  match t.tasks with
  | [] => (t, outs)
  | task :: tasks => ({ t with tasks := tasks }, outs ++ [.handle task])

/-- One round of `run`, behind its test of `quit_`; `none` when the thread waits, or
something is read that has not been set. -/
def round (settings : TracingSettings) (conv : Conversion) (r : Round)
    (t : TeacherWorkingThread) : Option (TeacherWorkingThread × List Output) :=
  if t.sem = 0 then none
  else
    let t := { t with sem := t.sem - 1 }
    if t.runningState = 0 ∧ t.teacherDetectedData.length ≥ 2 then
      (t.trytrace settings conv r).map fun (t, outs) => t.execNext outs
    else some (t.execNext [])

/-- What happens to the thread: one of its rounds, or a call. -/
inductive Input
  | round (r : Round)
  | setCamshiftPt (stamp : ℚ) (pt : CvPoint) (analyzeDuration : ℚ)
  | add (task : Ptz.Task)
  | setRunningState (state : ℤ)

def step (settings : TracingSettings) (conv : Conversion) (t : TeacherWorkingThread) :
    Input → Option (TeacherWorkingThread × List Output)
  | .round r => t.round settings conv r
  | .setCamshiftPt stamp pt analyzeDuration => some (t.setCamshiftPt stamp pt analyzeDuration, [])
  | .add task => some (t.add task, [])
  | .setRunningState state => some ({ t with runningState := state }, [])

end TeacherWorkingThread

end LibSimple.Teacher
