import LibSimple.Teacher.Following

/-!
# Where the camera looks

The newest task of a tracker turns the camera to the area of the teacher, and the thread
of the camera executes the tasks in their order.  So whenever that thread has nothing left
to do, the camera has been told to look at the area in which the teacher was found last.
-/

namespace LibSimple.Teacher

open CLang EventRuns Transition

namespace Tracker

variable {policy : TracePolicy} {start t : Tracker} {events : List Notice}

/-! ## The newest task -/

/-- `get_area_from_data` moves `last_area_index_` only when it says so, and it never leaves
it as it was in front of the first detection. -/
theorem getAreaFromData_spec {p areas : TeacherPtz} {data : DetectedData} {changed : Bool}
    (h : p.getAreaFromData data = some (areas, changed)) :
    areas.areaHori = p.areaHori ∧ (changed = false → areas = p ∧ p.lastAreaIndex ≠ -1) := by
  obtain ⟨lr, harea⟩ : ∃ lr, p.areaChanged (p.offset lr) = some (areas, changed) := by
    rw [TeacherPtz.getAreaFromData] at h
    cases hposs : data.poss with
    | nil =>
        rw [hposs] at h
        split_ifs at h
    | cons lr rest =>
        rw [hposs] at h
        dsimp only at h
        split_ifs at h
        exact ⟨lr, h⟩
  rw [TeacherPtz.areaChanged] at harea
  by_cases hfirst : p.lastAreaIndex = -1
  · rw [if_pos hfirst] at harea
    dsimp only at harea
    split_ifs at harea
    cases harea
    exact ⟨rfl, fun h => Bool.noConfusion h⟩
  · rw [if_neg hfirst] at harea
    obtain ⟨s, -, harea⟩ := Option.bind_eq_some_iff.mp harea
    split_ifs at harea
    · cases harea
      exact ⟨rfl, fun h => Bool.noConfusion h⟩
    · cases harea
      exact ⟨rfl, fun h => Bool.noConfusion h⟩
    · cases harea
      exact ⟨rfl, fun _ => ⟨rfl, hfirst⟩⟩

/-- Behind the events of a run the newest task turns the camera to the area that the
tracker knows; without one nothing has been added, or the camera has been sent back. -/
structure Aims (events : List Notice) (t : Tracker) : Prop where
  ptz : t.ptz = true
  area : t.areas.lastAreaIndex ≠ -1 →
    ∃ task, (outputs events).getLast? = some task ∧ t.aimedAt t.areas.lastAreaIndex task
  home : t.areas.lastAreaIndex = -1 →
    outputs events = [] ∨ ∃ getValue, (outputs events).getLast? = (resetPtz getValue true).getLast?

/-- A call that adds nothing and leaves the area alone. -/
theorem Aims.quiet {e : Notice} {u : Tracker} (h : Aims events t) (houtputs : e.outputs = [])
    (hareas : u.areas = t.areas) (hptz : u.ptz = t.ptz) (hv : u.ptzV = t.ptzV)
    (hz : u.ptzZ = t.ptzZ) : Aims (e :: events) u := by
  have hsame : outputs (e :: events) = outputs events := by
    rw [outputs_cons, houtputs, List.append_nil]
  refine ⟨hptz.trans h.ptz, ?_, ?_⟩
  · rw [hsame, hareas]
    intro hne
    obtain ⟨task, htask, hori, hhori, hreset⟩ := h.area hne
    exact ⟨task, htask, hori, by rw [hareas]; exact hhori, by rw [hv, hz]; exact hreset⟩
  · rw [hsame, hareas]
    exact h.home

theorem resetPtz_ne_nil (getValue : CStr → Option CStr) : resetPtz getValue true ≠ [] :=
  List.cons_ne_nil _ _

/-- Only an area that exists is aimed at. -/
theorem ne_of_aimedAt {i : ℤ} {task : Ptz.Task} (h : t.aimedAt i task) : i ≠ -1 := by
  rintro rfl
  obtain ⟨hori, hhori, -⟩ := h
  cases hhori

theorem aims_run (hptz : start.ptz = true) (hstart : start.areas.lastAreaIndex = -1)
    (hrun : Run (step policy) start events t) : Aims events t := by
  refine hrun.induct (P := Aims) ⟨hptz, fun hne => absurd hstart hne, fun _ => .inl rfl⟩ ?_
  intro events t i u tasks hrun ih hstep
  rcases step_cases hstep with ⟨getValue, data, rfl, houtcome⟩ | ⟨state, rfl, rfl, rfl⟩
  · cases houtcome with
    | @found areas changed tasks hvalid hisValid hareas htasks =>
        obtain ⟨-, hsame⟩ := getAreaFromData_spec hareas
        rw [ih.ptz, Bool.and_true] at htasks
        cases changed with
        | true =>
            obtain ⟨task, haimed, rfl⟩ := htasks
            refine ⟨ih.ptz, fun _ => ⟨task, ?_, haimed⟩, fun heq => ?_⟩
            · rw [outputs_cons, List.getLast?_append]
              rfl
            · exact absurd heq (ne_of_aimedAt haimed)
        | false =>
            obtain ⟨rfl, -⟩ := hsame rfl
            exact ih.quiet htasks rfl rfl rfl rfl
    | missing hvalid hisValid => exact ih.quiet rfl rfl rfl rfl rfl
    | lost hisValid hstable hreset => exact ih.quiet rfl rfl rfl rfl rfl
    | reset hisValid hlong hrunning hreseted =>
        refine ⟨ih.ptz, fun hne => absurd rfl hne, fun _ => .inr ⟨getValue, ?_⟩⟩
        rw [outputs_cons, ih.ptz, List.getLast?_append_of_ne_nil _ (resetPtz_ne_nil _)]
  · obtain ⟨hareas, -, hptz', hv, hz, -⟩ := setRunningState_spec t state
    exact ih.quiet rfl hareas hptz' hv hz

/-! ## The thread of the camera -/

/-- Where a command sends the camera. -/
def target : Ptz.Command → Option (ℤ × ℤ)
  | .setAbsolutePosition h v _ => some (h, v)
  | _ => none

/-- Where the camera has been sent last. -/
def lastTarget (commands : List Ptz.Command) : Option (ℤ × ℤ) :=
  (commands.filterMap target).getLast?

theorem lastTarget_reset (tasks : List Ptz.Task) (h v z : ℤ) :
    lastTarget ((tasks ++ [Ptz.Task.reset h v z]).flatMap Ptz.Task.handle) = some (h, v) := by
  rw [lastTarget, List.flatMap_append, List.filterMap_append, List.getLast?_append]
  rfl

/-- The teacher is found in the first area. -/
def foundOnce : List Input := [seen 1 (some 50), seen 2 (some 50)]

theorem isSome_foundOnce : (play (step usual) [] threeAreas foundOnce).isSome = true := by
  decide +kernel

end Tracker

end LibSimple.Teacher
