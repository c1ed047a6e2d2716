import LibSimple.Teacher.Calibration
import LibSimple.Teacher.Control

/-!
# Keys, mouse and frames

`TeacherRunning` as a whole: the keys of all its states, the mouse in its two windows, and
`one_image` with the switch between the two pictures.  In the program keys and frames come
from different threads; here each call is one step.
-/

namespace LibSimple.Teacher

open CLang EventRuns

/-- `SwitchTo` -/
inductive SwitchTo
  | fullview
  | closeview
  deriving DecidableEq

/-- A `TeacherRunning` with its `TeacherPtz`. -/
structure Session (Config : Type) where
  running : TeacherRunning Config
  ptz : Tracker
  switcher : SwitchTo

/-- What the camera is given: a task for its queue, or a call at once. -/
inductive Effect
  | add (task : Ptz.Task)
  | call (command : Ptz.Command)
  deriving DecidableEq

/-- What `ptz_get_current_position` and `ptz_zoom_get` say. -/
structure Position where
  h : ℤ
  v : ℤ
  z : ℤ

namespace Session

section

variable {Config : Type} (kv : KVConfig Config)

/-- The constructors of `Running` and `TeacherRunning`, with a mask. -/
def create (cfg : Config) (ptz : Bool) (hori : ℤ → ℤ) : Session Config :=
  let mask :=
    if intValue (kv.getValue cfg) "hog_enabled" "0" ≠ 0 then
      buildMask kv cfg false calibrationData none
    else buildMask kv cfg false calibrationData2 (some calibrationData3)
  { running :=
      { cfg := cfg
        state := .running
        calibrations := []
        enableMask := true
        imgMask := mask.2
        masked := mask.1 }
    ptz := .create (kv.getValue cfg) ptz hori
    switcher := .fullview }

/-- `cfg_->set_value(key, value)` with an `int`. -/
def setInt (cfg : Config) (key : String) (value : ℤ) : Config :=
  kv.setValue cfg (.ofString key) (.ofBuffer (intText value))

variable (s : Session Config)

/-- `ptz_stop` and `ptz_zoom_stop`, if there is a device. -/
def stops : List Effect := if s.ptz.ptz then [.call .stop, .call .zoomStop] else []

/-- `ptz_->add` of a task for the device, if there is one. -/
def adds (task : Option Ptz.Task) : List Effect :=
  if s.ptz.ptz then (task.map Effect.add).toList else []

/-- `turn_left_edge` -/
def turnLeftEdge : List Effect :=
  if s.ptz.ptz then [.call (.setAbsolutePosition s.ptz.ptzLeft s.ptz.ptzV 30)] else []

/-- `turn_right_edge` -/
def turnRightEdge : List Effect :=
  if s.ptz.ptz then [.call (.setAbsolutePosition s.ptz.ptzRight s.ptz.ptzV 30)] else []

/-- The keys `'c'`, `'b'` and `'d'` in `key_running_handle`. -/
def beginCalibration (state : State) : Session Config × List Effect :=
  ({ s with running :=
    { s.running with state := state, calibrations := [], enableMask := false } }, [])

/-- `key_running_handle` -/
def keyRunningHandle (key : ℤ) : Session Config × List Effect :=
  if key = 'c'.toNat then s.beginCalibration .calibrating
  else if key = 'b'.toNat then s.beginCalibration .calibrating2
  else if key = 'd'.toNat then s.beginCalibration .calibrating3
  else if key = 'p'.toNat then
    ({ s with
        running := { s.running with state := .ptziniting }
        ptz := s.ptz.setRunningState 1 },
      s.stops ++
        (Tracker.resetPtz (kv.getValue s.running.cfg) s.ptz.ptz).map Effect.add)
  else if key = 'l'.toNat then
    ({ s with
        running := { s.running with state := .ptzinitLeft }
        ptz := (s.ptz.setRunningState 1).setRunningState 1 },
      s.stops ++ s.turnLeftEdge)
  else if key = 'r'.toNat then
    ({ s with
        running := { s.running with state := .ptzinitRight }
        ptz := (s.ptz.setRunningState 1).setRunningState 1 },
      s.stops ++ s.turnRightEdge)
  else (s, [])

/-- Back to `RUNNING` from one of the states that have the camera. -/
def giveBack : Session Config :=
  { s with running := { s.running with state := .running }, ptz := s.ptz.setRunningState 0 }

/-- `key_ptzinit_left_right_handle`, with shift and the position of the device. -/
def keyPtzinitLeftRightHandle (key : ℤ) (shift : Bool) (pos : Position) :
    Session Config × List Effect :=
  let moveTimeout := if shift then 100 else 200
  if key = 27 then (s.giveBack, [])
  else if key = 13 then
    let cfg :=
      if s.ptz.ptz then
        kv.saveAs
          (if s.running.state = .ptzinitLeft then setInt kv s.running.cfg "ptz_left" pos.h
          else setInt kv s.running.cfg "ptz_right" pos.h)
      else s.running.cfg
    ({ s with running := { s.running with cfg := cfg } }.giveBack, [])
  else if key = 0x250000 then (s, s.adds (Ptz.taskPtzMove s.ptz.ptz 1 1 moveTimeout))
  else if key = 0x270000 then (s, s.adds (Ptz.taskPtzMove s.ptz.ptz 2 1 moveTimeout))
  else (s, [])

/-- `key_ptziniting_handle` -/
def keyPtzinitingHandle (key : ℤ) (shift : Bool) (pos : Position) :
    Session Config × List Effect :=
  let moveTimeout := if shift then 50 else 250
  if key = 27 then (s.giveBack, [])
  else if key = 13 then
    let cfg :=
      if s.ptz.ptz then
        kv.saveAs (setInt kv (setInt kv (setInt kv s.running.cfg "ptz_init_x" pos.h)
          "ptz_init_y" pos.v) "ptz_init_z" pos.z)
      else s.running.cfg
    ({ s with running := { s.running with cfg := cfg } }.giveBack, [])
  else if key = 0x3d then (s, s.adds (Ptz.taskPtzZoom s.ptz.ptz true 7 100))
  else if key = 0x2b then (s, s.adds (Ptz.taskPtzZoom s.ptz.ptz true 7 200))
  else if key = 0x5f then (s, s.adds (Ptz.taskPtzZoom s.ptz.ptz false 7 100))
  else if key = 0x2d then (s, s.adds (Ptz.taskPtzZoom s.ptz.ptz false 7 200))
  else if key = 0x250000 then (s, s.adds (Ptz.taskPtzMove s.ptz.ptz 1 1 moveTimeout))
  else if key = 0x270000 then (s, s.adds (Ptz.taskPtzMove s.ptz.ptz 2 1 moveTimeout))
  else if key = 0x260000 then (s, s.adds (Ptz.taskPtzMove s.ptz.ptz 3 1 moveTimeout))
  else if key = 0x280000 then (s, s.adds (Ptz.taskPtzMove s.ptz.ptz 4 1 moveTimeout))
  else (s, [])

/-- `key_handle` -/
def keyHandle (key : ℤ) (shift : Bool) (pos : Position) :
    Option (Session Config × List Effect) :=
  match s.running.state with
  | .running => some (s.keyRunningHandle kv key)
  | .calibrating | .calibrating2 | .calibrating3 =>
      (keyCalibratingHandle kv s.running key).map fun r => ({ s with running := r }, [])
  | .ptzinitLeft | .ptzinitRight => some (s.keyPtzinitLeftRightHandle kv key shift pos)
  | .ptziniting => some (s.keyPtzinitingHandle kv key shift pos)

/-- `CV_EVENT_LBUTTONUP` -/
def lbuttonup : ℤ := 4

/-- `mouse_detected` -/
def mouseDetected (ev : ℤ) (pt : CvPoint) : Session Config :=
  match s.running.state with
  | .calibrating | .calibrating2 | .calibrating3 =>
      if ev = lbuttonup then
        { s with running := { s.running with calibrations := s.running.calibrations ++ [pt] } }
      else s
  | _ => s

/-- `mouse_traced`; `none` when a picture of width or height one or less is divided by. -/
def mouseTraced (ev x y : ℤ) : Option (List Effect) :=
  if s.running.state = .ptziniting ∧ ev = lbuttonup then
    let width := intValue (kv.getValue s.running.cfg) "video_window" "960"
    let height := intValue (kv.getValue s.running.cfg) "video_height" "540"
    if width.tdiv 2 = 0 ∨ height.tdiv 2 = 0 then none
    else
      let hr : ℚ := subInt x (width.tdiv 2) / (width.tdiv 2 : ℤ)
      let vr : ℚ := subInt (height.tdiv 2) y / (height.tdiv 2 : ℤ)
      some (s.adds (Ptz.taskPtzCenter s.ptz.ptz hr vr 30))
  else some []

/-- The switch at the end of `one_image`. -/
def switch (ptz : Tracker) : SwitchTo → SwitchTo
  | .fullview => if ptz.isStable then .closeview else .fullview
  | .closeview => if !ptz.isStable then .fullview else .closeview

/-- `one_image`, with the boxes that `one_frame` finds and the time when it has. -/
def oneImage (policy : TracePolicy) (r : List Pos) (now : ℚ) :
    Option (Session Config × List Effect) := do
  let data : DetectedData := ⟨!r.isEmpty, now, r⟩
  let (ptz, tasks) ← s.ptz.setDetectedData policy (kv.getValue s.running.cfg) data
  some ({ s with ptz := ptz, switcher := switch ptz s.switcher }, tasks.map Effect.add)

/-- What a session is told. -/
inductive Input
  | key (key : ℤ) (shift : Bool) (pos : Position)
  | mouseDetected (ev : ℤ) (pt : CvPoint)
  | mouseTraced (ev x y : ℤ)
  | oneImage (r : List Pos) (now : ℚ)

/-- A call, with what the camera is given. -/
def step (policy : TracePolicy) (s : Session Config) :
    Input → Option (Session Config × List Effect)
  | .key key shift pos => s.keyHandle kv key shift pos
  | .mouseDetected ev pt => some (s.mouseDetected ev pt, [])
  | .mouseTraced ev x y => (s.mouseTraced kv ev x y).map fun effects => (s, effects)
  | .oneImage r now => s.oneImage kv policy r now

end

end Session

end LibSimple.Teacher
