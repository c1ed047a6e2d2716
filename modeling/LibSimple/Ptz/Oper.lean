import LibSimple.Ptz.TaskOrder
import Mathlib.Data.Rat.Defs

/-!
# The tasks of a PTZ camera

The tasks of `ptz_oper.h`, each by what its handler makes the camera do.  None of them
has a `should_do`, and their `free` only gives memory back.  A handler that sets the
camera in motion waits and then stops it, so that the camera stands still between two
tasks.
-/

namespace LibSimple.Ptz

open Transition

/-- What a handler calls: the functions of `ptz.h`, and `ost::Thread::sleep`. -/
inductive Command
  | left (speed : ℤ)
  | right (speed : ℤ)
  | up (speed : ℤ)
  | down (speed : ℤ)
  | stop
  | zoomTele (speed : ℤ)
  | zoomWide (speed : ℤ)
  | zoomStop
  | zoomSet (z : ℤ)
  | setAbsolutePosition (h v speed : ℤ)
  | extLocationCenter (hr vr : ℚ) (speed zoom : ℤ)
  | sleep (timeout : ℤ)
  deriving DecidableEq

/-- `Task`, with what its `opaque` points at: `Opaque_ptz_move`, `Opaque_ptz_zoom`,
`Opaque_ptz_center` or `Opaque_ptz_reset`. -/
inductive Task
  | move (speed timeout dir : ℤ)
  | zoom (tele : Bool) (speed timeout : ℤ)
  | center (hr vr : ℚ) (speed : ℤ)
  | reset (h v z : ℤ)
  deriving DecidableEq

/-- `task_ptz_move`; a null pointer for no device. -/
def taskPtzMove (ptz : Bool) (dir speed timeout : ℤ) : Option Task :=
  if ptz then some (.move speed timeout dir) else none

/-- `task_ptz_zoom` -/
def taskPtzZoom (ptz tele : Bool) (speed timeout : ℤ) : Option Task :=
  if ptz then some (.zoom tele speed timeout) else none

/-- `task_ptz_center` -/
def taskPtzCenter (ptz : Bool) (hr vr : ℚ) (speed : ℤ) : Option Task :=
  if ptz then some (.center hr vr speed) else none

/-- `task_ptz_reset` -/
def taskPtzReset (ptz : Bool) (h v z : ℤ) : Option Task :=
  if ptz then some (.reset h v z) else none

/-- `task_ptz_set_position` -/
def taskPtzSetPosition (ptz : Bool) (h v z : ℤ) : Option Task :=
  if ptz then taskPtzReset ptz h v z else none

/-- `task_ptz_move_handle` -/
def taskPtzMoveHandle (speed timeout dir : ℤ) : List Command :=
  (if dir = 1 then [.left speed]
    else if dir = 2 then [.right speed]
    else if dir = 3 then [.up speed]
    else if dir = 4 then [.down speed]
    else []) ++ [.sleep timeout, .stop]

/-- `task_ptz_zoom_handle` -/
def taskPtzZoomHandle (tele : Bool) (speed timeout : ℤ) : List Command :=
  [if tele then .zoomTele speed else .zoomWide speed, .sleep timeout, .zoomStop]

/-- `task_ptz_center_handle` -/
def taskPtzCenterHandle (hr vr : ℚ) (speed : ℤ) : List Command :=
  [.extLocationCenter hr vr speed 0]

/-- `task_ptz_reset_handle` -/
def taskPtzResetHandle (h v z : ℤ) : List Command :=
  [.zoomSet z, .setAbsolutePosition h v 30]

/-- The `handle` of a task. -/
def Task.handle : Task → List Command
  | .move speed timeout dir => taskPtzMoveHandle speed timeout dir
  | .zoom tele speed timeout => taskPtzZoomHandle tele speed timeout
  | .center hr vr speed => taskPtzCenterHandle hr vr speed
  | .reset h v z => taskPtzResetHandle h v z

/-! ## Standing still -/

/-- Whether the camera has been set in motion, and whether its zoom has. -/
structure Motion where
  panning : Bool
  zooming : Bool
  deriving DecidableEq

def Motion.still : Motion := ⟨false, false⟩

/-- The motion behind a command. -/
def Motion.after (m : Motion) : Command → Motion
  | .left _ | .right _ | .up _ | .down _ => { m with panning := true }
  | .stop => { m with panning := false }
  | .zoomTele _ | .zoomWide _ => { m with zooming := true }
  | .zoomStop => { m with zooming := false }
  | .zoomSet _ | .setAbsolutePosition _ _ _ | .extLocationCenter _ _ _ _ | .sleep _ => m

/-- A handler stops what it has set in motion. -/
theorem foldl_handle (t : Task) : t.handle.foldl Motion.after .still = .still := by
  cases t with
  | move speed timeout dir =>
      show (taskPtzMoveHandle speed timeout dir).foldl _ _ = _
      rw [taskPtzMoveHandle]
      split_ifs <;> rfl
  | zoom tele speed timeout =>
      cases tele with
      | true => rfl
      | false => rfl
  | center hr vr speed => rfl
  | reset h v z => rfl

theorem foldl_flatMap_handle (ts : List Task) :
    (ts.flatMap Task.handle).foldl Motion.after .still = .still := by
  induction ts with
  | nil => rfl
  | cons t ts ih => rw [List.flatMap_cons, List.foldl_append, foldl_handle, ih]

/-! ## What the camera is told -/

variable {κ : Type} {dev : Device Task} [DecidableEq κ]

/-- The commands of the handler that begins between two states. -/
def commands (s t : State κ Task) : List Command := (started s t).flatMap Task.handle

/-- The device of a camera. -/
def camera : Device Task := ⟨true, .reset⟩

end LibSimple.Ptz
