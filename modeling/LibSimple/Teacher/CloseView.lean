import LibSimple.Teacher.Tracing

/-!
# The way to the close view and back

What holds of the rounds of `TeacherWorkingThread`, whatever is called between them.  The
thread never reads what has not been set, and it waits only when it has no task.  The close
view is reached only by way of a position that the camera has been sent to, for a target
that kept still; and until it is left, no state function turns the camera.
-/

namespace LibSimple.Teacher

open CLang EventRuns

namespace TeacherWorkingThread

variable {settings : TracingSettings} {conv : Conversion} {r : Round}
  {t u : TeacherWorkingThread} {outs : List Output}

/-! ## What one round does -/

/-- The data of a round are good for tracing: the window is long enough, and the target has
been seen in it twice, the last time not long ago. -/
structure Usable (settings : TracingSettings) (r : Round) (t : TeacherWorkingThread)
    (window : List TeacherDetected) (last : TeacherDetected) : Prop where
  update : updateData settings.analyzeInterval t.teacherDetectedData = some (window, true)
  seen : dataLastValid window = some last
  fresh : r.curr - last.stamp ≤ settings.timeToStopTracing
  two : 2 ≤ (dataValided window).1

/-- What the camera says in a round. -/
def readingOf (r : Round) (t : TeacherWorkingThread) : Option Reading :=
  if t.ptz then some r.reading else none

/-- `trace_info_` for a window that is good for tracing. -/
def infoOf (conv : Conversion) (r : Round) (t : TeacherWorkingThread)
    (window : List TeacherDetected) (last : TeacherDetected) : TracingInfo :=
  let rcTrace :=
    (conv.det2tra (readingOf r t) (dataRange (window.map TeacherDetected.pt)) last.pt).1
  ⟨.ok, dataValidDuration window, rcTrace.width, rcTrace.height⟩

/-- The round finds that the target keeps still, and this is the position for its last
place. -/
def Steady (settings : TracingSettings) (conv : Conversion) (r : Round)
    (t : TeacherWorkingThread) (position : ℤ × ℤ) : Prop :=
  ∃ window last, Usable settings r t window last ∧
    Teacher.stateFullview settings.toSettings (infoOf conv r t window last)
      (window.map TeacherDetected.pt) = .toClose ∧
    position = conv.pointCov (readingOf r t) last.pt

/-- The camera says that it is at the position. -/
def Near (r : Round) (position : ℤ × ℤ) : Prop :=
  |r.arrived.1 - position.1| < 3 ∧ |r.arrived.2 - position.2| < 3

/-- The target is not further from the middle of the picture than half of the stable
frame. -/
def Inside (settings : TracingSettings) (p : Option (ℤ × ℤ)) : Prop :=
  ∃ pt, p = some pt ∧ |pt.1| ≤ settings.stableWidth.tdiv 2

/-- What `trytrace` does: it sends the camera to a target that keeps still, leaves
everything to the next round, sends the camera back, finds that the camera has arrived, or
goes back to the full view.  `p` is the last place of the target from then on. -/
inductive Traces (settings : TracingSettings) (conv : Conversion) (r : Round)
    (t : TeacherWorkingThread) : TeacherWorkingThread → List Output → Prop
  | aim {p position} (hstate : t.state = .fullview)
      (hsteady : Steady settings conv r t position) :
      Traces settings conv r t
        { ({ t with ptTraceLast := some p }.setPtzAbsPos position).1 with state := .toClose }
        (t.setPtzAbsPos position).2
  | stay {p} (hp : p = none → t.ptTraceLast = none)
      (hclose : t.state = .closeview → Inside settings p) :
      Traces settings conv r t { t with ptTraceLast := p } []
  | reset (hstate : t.state = .fullview) : Traces settings conv r t (t.resetPtz r.getValue) []
  | arrive {p position} (hp : p = none → t.ptTraceLast = none) (hstate : t.state = .toClose)
      (hptz : t.ptz = true) (hposition : t.toClose = some position) (hnear : Near r position) :
      Traces settings conv r t { t with ptTraceLast := p, state := .closeview } []
  | back {p} (hstate : t.state = .toClose ∧ t.ptz = false ∨ t.state = .closeview) :
      Traces settings conv r t { t with ptTraceLast := p, state := .fullview } []

theorem traceResult_eq_ok {window : List TeacherDetected} {enough : Bool}
    (h : traceResult settings window enough r = .ok) :
    enough = true ∧ 2 ≤ (dataValided window).1 ∧
      r.curr - ((dataLastValid window).map TeacherDetected.stamp).getD r.lastValidStamp ≤
        settings.timeToStopTracing := by
  simp only [traceResult] at h
  by_cases hlate : r.curr - ((dataLastValid window).map TeacherDetected.stamp).getD
      r.lastValidStamp > settings.timeToStopTracing
  · simp [hlate] at h
  · rw [if_neg hlate] at h
    by_cases hfew : (dataValided window).1 < 2
    · cases enough <;> simp [hfew] at h
    · refine ⟨?_, not_lt.mp hfew, not_lt.mp hlate⟩
      cases enough with
      | true => rfl
      | false => simp at h

theorem exists_dataLastValid {window : List TeacherDetected} (h : 2 ≤ (dataValided window).1) :
    ∃ last, dataLastValid window = some last := by
  rw [← Option.isSome_iff_exists, dataLastValid, List.find?_isSome]
  obtain ⟨d, hd, hvalid⟩ := List.countP_pos_iff.mp (Nat.lt_of_lt_of_le Nat.zero_lt_two h)
  exact ⟨d, List.mem_reverse.mpr hd, hvalid⟩

/-- The states other than the full view do not look at the data. -/
theorem traces_of_stateFunc {p : Option (ℤ × ℤ)} {info : TracingInfo} {points : List CvPoint}
    {position : ℤ × ℤ} (hp : p = none → t.ptTraceLast = none) (hstate : t.state ≠ .fullview)
    (h : { t with ptTraceLast := p }.stateFunc settings r info points position =
      some (u, outs)) : Traces settings conv r t u outs := by
  obtain ⟨ptz, state, ptTraceLast, toClose, data, tasks, sem, runningState⟩ := t
  cases state with
  | fullview => exact absurd rfl hstate
  | toClose =>
      obtain ⟨v, hv, hr⟩ := Option.map_eq_some_iff.mp h
      cases hr
      rw [stateToclose] at hv
      split_ifs at hv with hptz
      · obtain ⟨c, hc, hv⟩ := Option.bind_eq_some_iff.mp hv
        dsimp only at hv
        split_ifs at hv with hnear
        · cases hv
          exact .arrive hp rfl hptz hc hnear
        · cases hv
          exact .stay hp TeacherImplRunningState.noConfusion
      · cases hv
        exact .back (.inl ⟨rfl, by simpa using hptz⟩)
  | closeview =>
      obtain ⟨v, hv, hr⟩ := Option.map_eq_some_iff.mp h
      cases hr
      obtain ⟨pt, hpt, hv⟩ := Option.bind_eq_some_iff.mp hv
      split_ifs at hv with hfar
      · cases hv
        exact .back (.inr rfl)
      · cases hv
        exact .stay hp fun _ => ⟨pt, hpt, not_lt.mp hfar⟩

theorem stateFullview_of_ok {info : TracingInfo} {points : List CvPoint} {position : ℤ × ℤ}
    (hok : info.result = .ok) :
    t.stateFullview settings r info points position =
      if Teacher.stateFullview settings.toSettings info points = .toClose then
        ({ (t.setPtzAbsPos position).1 with state := .toClose }, (t.setPtzAbsPos position).2)
      else (t, []) := by
  rw [stateFullview, if_pos hok]
  cases Teacher.stateFullview settings.toSettings info points <;> rfl

theorem stateFunc_of_fullview {info : TracingInfo} {points : List CvPoint} {position : ℤ × ℤ}
    (hstate : t.state = .fullview) :
    t.stateFunc settings r info points position =
      some (t.stateFullview settings r info points position) := by
  rw [stateFunc, hstate]

/-- What `set_ptz_abs_pos` tells the camera does not depend on the target's last place. -/
theorem setPtzAbsPos_outputs (p : Option (ℤ × ℤ)) (position : ℤ × ℤ) :
    ({ t with ptTraceLast := p }.setPtzAbsPos position).2 = (t.setPtzAbsPos position).2 := by
  rw [setPtzAbsPos, setPtzAbsPos]
  cases t.ptz <;> rfl

/-- The full view, with data that are good for tracing or not. -/
theorem traces_of_fullview {window : List TeacherDetected} {last : TeacherDetected}
    {p : ℤ × ℤ} (husable : Usable settings r t window last) (hstate : t.state = .fullview)
    (h : { t with ptTraceLast := some p }.stateFunc settings r (infoOf conv r t window last)
      (window.map TeacherDetected.pt) (conv.pointCov (readingOf r t) last.pt) =
        some (u, outs)) :
    Traces settings conv r t u outs := by
  rw [stateFunc_of_fullview (t := { t with ptTraceLast := some p }) hstate, Option.some_inj,
    stateFullview_of_ok rfl] at h
  split_ifs at h with hsteady
  · cases h
    rw [setPtzAbsPos_outputs]
    exact .aim hstate ⟨window, last, husable, hsteady, rfl⟩
  · cases h
    refine .stay (fun hnone => absurd hnone (Option.some_ne_none p)) fun hclose => ?_
    rw [hstate] at hclose
    cases hclose

theorem traces_of_trytrace (h : t.trytrace settings conv r = some (u, outs)) :
    Traces settings conv r t u outs := by
  obtain ⟨⟨window, enough⟩, hwindow, h⟩ := Option.bind_eq_some_iff.mp h
  change (if traceResult settings window enough r = .ok then _ else _) = _ at h
  by_cases hok : traceResult settings window enough r = .ok
  · rw [if_pos hok] at h
    obtain ⟨last, hlast, h⟩ := Option.bind_eq_some_iff.mp h
    obtain ⟨rfl, htwo, hfresh⟩ := traceResult_eq_ok hok
    rw [hlast] at hfresh
    rw [hok] at h
    by_cases hstate : t.state = .fullview
    · exact traces_of_fullview ⟨hwindow, hlast, hfresh, htwo⟩ hstate h
    · exact traces_of_stateFunc (fun hnone => absurd hnone (Option.some_ne_none _)) hstate h
  · rw [if_neg hok] at h
    by_cases hstate : t.state = .fullview
    · rw [stateFunc_of_fullview hstate, Option.some_inj, stateFullview, if_neg hok] at h
      split_ifs at h
      · cases h
        exact .reset hstate
      · cases h
        exact .stay id fun hclose => by
          rw [hstate] at hclose
          cases hclose
    · exact traces_of_stateFunc (p := t.ptTraceLast) id hstate h

/-- A round: a token is taken, the detections are looked at if there are enough of them, and
a task is executed if there is one. -/
theorem round_cases (h : t.round settings conv r = some (u, outs)) :
    0 < t.sem ∧ ∃ v before,
      (if t.runningState = 0 ∧ t.teacherDetectedData.length ≥ 2 then
          Traces settings conv r { t with sem := t.sem - 1 } v before
        else v = { t with sem := t.sem - 1 } ∧ before = []) ∧
      (u, outs) = v.execNext before := by
  rw [round] at h
  dsimp only at h
  by_cases hsem : t.sem = 0
  · rw [if_pos hsem] at h
    cases h
  refine ⟨Nat.pos_of_ne_zero hsem, ?_⟩
  rw [if_neg hsem] at h
  split_ifs at h ⊢ with hlooks
  · obtain ⟨⟨v, before⟩, hv, h⟩ := Option.map_eq_some_iff.mp h
    exact ⟨v, before, traces_of_trytrace hv, h.symm⟩
  · exact ⟨_, [], ⟨rfl, rfl⟩, (Option.some.inj h).symm⟩

theorem execNext_eq (v : TeacherWorkingThread) (before : List Output) :
    v.execNext before =
      ({ v with tasks := v.tasks.tail }, before ++ v.tasks.head?.toList.map .handle) := by
  obtain ⟨ptz, state, ptTraceLast, toClose, data, tasks, sem, runningState⟩ := v
  cases tasks with
  | nil => exact Prod.ext rfl (List.append_nil before).symm
  | cons task tasks => rfl

theorem foldl_add (tasks : List Ptz.Task) (t : TeacherWorkingThread) :
    tasks.foldl add t =
      { t with tasks := t.tasks ++ tasks, sem := t.sem + tasks.length } := by
  induction tasks generalizing t with
  | nil => rw [List.foldl_nil, List.append_nil, List.length_nil, Nat.add_zero]
  | cons task tasks ih =>
      rw [List.foldl_cons, ih, add]
      simp only [List.append_assoc, List.singleton_append, List.length_cons]
      rw [Nat.add_assoc, Nat.add_comm 1]

theorem resetPtz_eq (getValue : CStr → Option CStr) (t : TeacherWorkingThread) :
    t.resetPtz getValue =
      { t with
        tasks := t.tasks ++ Tracker.resetPtz getValue t.ptz
        sem := t.sem + (Tracker.resetPtz getValue t.ptz).length } :=
  foldl_add _ t

theorem resetPtz_same (getValue : CStr → Option CStr) (t : TeacherWorkingThread) :
    (t.resetPtz getValue).state = t.state ∧ (t.resetPtz getValue).ptz = t.ptz ∧
      (t.resetPtz getValue).toClose = t.toClose := by
  rw [resetPtz_eq]
  exact ⟨rfl, rfl, rfl⟩

/-! ## What the thread may rely on -/

/-- What a state function reads has been set. -/
structure Assigned (t : TeacherWorkingThread) : Prop where
  ptTraceLast : t.state ≠ .fullview → ∃ p, t.ptTraceLast = some p
  toClose : t.state = .toClose → t.ptz = true → ∃ position, t.toClose = some position

/-- There is also a token for each task. -/
structure Ready (t : TeacherWorkingThread) : Prop extends Assigned t where
  tokens : t.tasks.length ≤ t.sem

/-- A round adds a token for each task. -/
theorem Traces.tokens (h : Traces settings conv r t u outs) :
    u.tasks.length + t.sem = t.tasks.length + u.sem := by
  cases h with
  | @aim p position hstate hsteady =>
      rw [setPtzAbsPos]
      split_ifs <;> rfl
  | reset hstate =>
      rw [resetPtz_eq]
      simp only [List.length_append]
      omega
  | stay hp hclose => rfl
  | arrive hp hstate hptz hposition hnear => rfl
  | back hstate => rfl

/-- The last place of the target stays known. -/
theorem Assigned.place (h : Assigned t) {p : Option (ℤ × ℤ)}
    (hp : p = none → t.ptTraceLast = none) (hstate : t.state ≠ .fullview) :
    ∃ pt, p = some pt := by
  obtain ⟨q, hq⟩ := h.ptTraceLast hstate
  cases p with
  | none =>
      rw [hp rfl] at hq
      cases hq
  | some pt => exact ⟨pt, rfl⟩

theorem Traces.assigned (h : Traces settings conv r t u outs) (ht : Assigned t) :
    Assigned u := by
  cases h with
  | @aim p position hstate hsteady =>
      rw [setPtzAbsPos]
      dsimp only
      split_ifs with hptz
      · exact ⟨fun _ => ⟨p, rfl⟩, fun _ _ => ⟨position, rfl⟩⟩
      · exact ⟨fun _ => ⟨p, rfl⟩, fun _ hptz' => absurd hptz' hptz⟩
  | stay hp hclose => exact ⟨ht.place hp, ht.toClose⟩
  | reset hstate =>
      rw [resetPtz_eq]
      exact ⟨ht.ptTraceLast, ht.toClose⟩
  | arrive hp hstate hptz hposition hnear =>
      refine ⟨fun _ => ht.place hp ?_, TeacherImplRunningState.noConfusion⟩
      rw [hstate]
      exact TeacherImplRunningState.noConfusion
  | back hstate => exact ⟨fun hne => absurd rfl hne, TeacherImplRunningState.noConfusion⟩

theorem ready_round (hready : Ready t) (h : t.round settings conv r = some (u, outs)) :
    Ready u := by
  obtain ⟨hsem, v, before, hv, hu⟩ := round_cases h
  rw [execNext_eq, Prod.mk.injEq] at hu
  obtain ⟨rfl, -⟩ := hu
  have htokens := hready.tokens
  have htaken : Assigned { t with sem := t.sem - 1 } := ⟨hready.ptTraceLast, hready.toClose⟩
  obtain ⟨hassigned, hbalance⟩ :
      Assigned v ∧ v.tasks.length + (t.sem - 1) = t.tasks.length + v.sem := by
    split_ifs at hv with hlooks
    · exact ⟨hv.assigned htaken, hv.tokens⟩
    · rw [hv.1]
      exact ⟨htaken, rfl⟩
  refine ⟨⟨hassigned.ptTraceLast, hassigned.toClose⟩, ?_⟩
  show v.tasks.tail.length ≤ v.sem
  rw [List.length_tail]
  omega

theorem ready_step (s : TeacherWorkingThread) (i : Input) (t : TeacherWorkingThread)
    (outs : List Output) (hready : Ready s) (h : step settings conv s i = some (t, outs)) :
    Ready t := by
  have htokens := hready.tokens
  cases i with
  | round r => exact ready_round hready h
  | setCamshiftPt stamp pt analyzeDuration =>
      cases h
      exact ⟨⟨hready.ptTraceLast, hready.toClose⟩, htokens.trans (Nat.le_succ _)⟩
  | add task =>
      cases h
      refine ⟨⟨hready.ptTraceLast, hready.toClose⟩, ?_⟩
      show (s.tasks ++ [task]).length ≤ s.sem + 1
      rw [List.length_append, List.length_singleton]
      omega
  | setRunningState state =>
      cases h
      exact ⟨⟨hready.ptTraceLast, hready.toClose⟩, htokens⟩

theorem ready_create (getValue : CStr → Option CStr) (ptz : Bool) :
    Ready (create getValue ptz) := by
  rw [create, resetPtz_eq]
  refine ⟨⟨fun hne => absurd rfl hne, TeacherImplRunningState.noConfusion⟩, ?_⟩
  show ([] ++ Tracker.resetPtz getValue ptz).length ≤ 0 + (Tracker.resetPtz getValue ptz).length
  rw [List.nil_append, Nat.zero_add]

theorem exists_stateToclose (h : t.ptz = true → ∃ position, t.toClose = some position) :
    ∃ u, t.stateToclose r = some u := by
  rw [stateToclose]
  split_ifs with hptz
  · obtain ⟨c, hc⟩ := h hptz
    simp only [hc, Option.bind_eq_bind, Option.bind_some]
    split_ifs
    · exact ⟨_, rfl⟩
    · exact ⟨_, rfl⟩
  · exact ⟨_, rfl⟩

theorem exists_stateCloseview (h : ∃ p, t.ptTraceLast = some p) :
    ∃ u, t.stateCloseview settings = some u := by
  obtain ⟨p, hp⟩ := h
  rw [stateCloseview, hp, Option.bind_eq_bind, Option.bind_some]
  split_ifs
  · exact ⟨_, rfl⟩
  · exact ⟨_, rfl⟩

theorem exists_stateFunc (ht : Assigned t) (info : TracingInfo) (points : List CvPoint)
    (position : ℤ × ℤ) :
    ∃ x, t.stateFunc settings r info points position = some x := by
  rw [stateFunc]
  cases hstate : t.state with
  | fullview => exact ⟨_, rfl⟩
  | toClose =>
      obtain ⟨u, hu⟩ := exists_stateToclose (r := r) (ht.toClose hstate)
      exact ⟨_, Option.map_eq_some_iff.mpr ⟨u, hu, rfl⟩⟩
  | closeview =>
      have hne : t.state ≠ .fullview := by
        rw [hstate]
        exact TeacherImplRunningState.noConfusion
      obtain ⟨u, hu⟩ : ∃ u, t.stateCloseview settings = some u :=
        exists_stateCloseview (ht.ptTraceLast hne)
      exact ⟨_, Option.map_eq_some_iff.mpr ⟨u, hu, rfl⟩⟩

theorem exists_updateData (duration : ℚ) {data : List TeacherDetected}
    (hlong : data.length ≥ 2) :
    ∃ window enough, updateData duration data = some (window, enough) := by
  obtain ⟨last, hlast⟩ : ∃ last, data.getLast? = some last := by
    rw [← Option.isSome_iff_exists, List.getLast?_isSome]
    rintro rfl
    exact absurd hlong (by decide)
  rw [updateData, if_pos hlong, hlast]
  exact ⟨_, _, rfl⟩

theorem exists_trytrace (ht : Assigned t) (hlong : t.teacherDetectedData.length ≥ 2) :
    ∃ x, t.trytrace settings conv r = some x := by
  obtain ⟨window, enough, hupdate⟩ := exists_updateData settings.analyzeInterval hlong
  rw [trytrace, hupdate]
  change ∃ x, (if traceResult settings window enough r = .ok then _ else _) = some x
  by_cases hok : traceResult settings window enough r = .ok
  · obtain ⟨-, htwo, -⟩ := traceResult_eq_ok hok
    obtain ⟨last, hlast⟩ := exists_dataLastValid htwo
    rw [if_pos hok, hlast]
    exact @exists_stateFunc settings r { t with ptTraceLast := some _ }
      ⟨fun _ => ⟨_, rfl⟩, ht.toClose⟩ _ _ _
  · rw [if_neg hok]
    exact exists_stateFunc ht _ _ _

theorem exists_round (ht : Assigned t) (hsem : 0 < t.sem) :
    ∃ x, t.round settings conv r = some x := by
  rw [round, if_neg (Nat.ne_of_gt hsem)]
  dsimp only
  split_ifs with hlooks
  · obtain ⟨x, hx⟩ := @exists_trytrace settings conv r { t with sem := t.sem - 1 }
      ⟨ht.ptTraceLast, ht.toClose⟩ hlooks.2
    exact ⟨_, Option.map_eq_some_iff.mpr ⟨x, hx, rfl⟩⟩
  · exact ⟨_, rfl⟩

/-- A round or a call in a run. -/
abbrev Occurrence := EventRuns.Event TeacherWorkingThread Input Output

/-- The state functions do not tell the camera anything. -/
def Quiet (e : Occurrence) : Prop := ∀ c, .command c ∉ e.outputs

/-- A round that looks at the detections. -/
def Looks (e : Occurrence) : Prop :=
  (∃ r, e.input = .round r) ∧ e.before.runningState = 0 ∧
    2 ≤ e.before.teacherDetectedData.length

/-- In the full view, a round finds that the target keeps still and sends the camera to the
position for it. -/
structure Aims (settings : TracingSettings) (conv : Conversion) (e : Occurrence)
    (position : ℤ × ℤ) : Prop where
  state : e.before.state = .fullview
  steady : ∃ r, e.input = .round r ∧ Steady settings conv r e.before position
  command : ∃ tasks : List Ptz.Task, e.outputs =
    .command (.setAbsolutePosition position.1 position.2 30) :: tasks.map .handle

/-- The camera has been sent to the position, and no state function has told it anything
since. -/
def Turning (settings : TracingSettings) (conv : Conversion) (events : List Occurrence)
    (position : ℤ × ℤ) : Prop :=
  ∃ later e earlier, events = later ++ e :: earlier ∧ Aims settings conv e position ∧
    ∀ e' ∈ later, e'.after.state = .toClose ∧ Quiet e'

/-- A round finds the camera at the position. -/
structure Arrives (e : Occurrence) (position : ℤ × ℤ) : Prop where
  state : e.before.state = .toClose
  near : ∃ r, e.input = .round r ∧ Near r position
  quiet : Quiet e

/-- The camera has been sent to a target that kept still and has arrived there.  From then
on no state function has told it anything, and each look has found the target inside of the
stable frame. -/
def ClosedUp (settings : TracingSettings) (conv : Conversion) (events : List Occurrence) :
    Prop :=
  ∃ later e turning position, events = later ++ e :: turning ∧
    Turning settings conv turning position ∧ Arrives e position ∧
    ∀ e' ∈ later, e'.after.state = .closeview ∧ Quiet e' ∧
      (Looks e' → Inside settings e'.after.ptTraceLast)

variable {events : List Occurrence} {e : Occurrence} {position : ℤ × ℤ}

theorem Turning.cons (h : Turning settings conv events position)
    (hstate : e.after.state = .toClose) (hquiet : Quiet e) :
    Turning settings conv (e :: events) position := by
  obtain ⟨later, e₁, earlier, rfl, haims, hlater⟩ := h
  exact ⟨e :: later, e₁, earlier, rfl, haims, List.forall_mem_cons.mpr ⟨⟨hstate, hquiet⟩, hlater⟩⟩

theorem ClosedUp.cons (h : ClosedUp settings conv events) (hstate : e.after.state = .closeview)
    (hquiet : Quiet e) (hinside : Looks e → Inside settings e.after.ptTraceLast) :
    ClosedUp settings conv (e :: events) := by
  obtain ⟨later, e₁, turning, position, rfl, hturning, harrives, hlater⟩ := h
  exact ⟨e :: later, e₁, turning, position, rfl, hturning, harrives,
    List.forall_mem_cons.mpr ⟨⟨hstate, hquiet, hinside⟩, hlater⟩⟩

/-- How the state has been reached. -/
structure History (settings : TracingSettings) (conv : Conversion) (events : List Occurrence)
    (t : TeacherWorkingThread) : Prop where
  turning : t.state = .toClose → t.ptz = true →
    ∃ position, t.toClose = some position ∧ Turning settings conv events position
  closedUp : t.state = .closeview → ClosedUp settings conv events

/-- An event that leaves the state alone. -/
theorem History.keep (h : History settings conv events e.before)
    (hstate : e.after.state = e.before.state) (hptz : e.after.ptz = e.before.ptz)
    (htoClose : e.after.toClose = e.before.toClose) (hquiet : Quiet e)
    (hinside : e.before.state = .closeview → Looks e → Inside settings e.after.ptTraceLast) :
    History settings conv (e :: events) e.after := by
  constructor
  · intro hs hp
    obtain ⟨position, hposition, hturning⟩ :=
      h.turning (hstate.symm.trans hs) (hptz.symm.trans hp)
    exact ⟨position, htoClose.trans hposition, hturning.cons hs hquiet⟩
  · intro hs
    have hbefore := hstate.symm.trans hs
    exact (h.closedUp hbefore).cons hs hquiet (hinside hbefore)

theorem quiet_handles (tasks : List Ptz.Task) (c : Ptz.Command) :
    .command c ∉ tasks.map Output.handle := by
  intro hmem
  obtain ⟨task, -, htask⟩ := List.mem_map.mp hmem
  cases htask

theorem Steady.ofTaken (h : Steady settings conv r { t with sem := t.sem - 1 } position) :
    Steady settings conv r t position := by
  obtain ⟨window, last, ⟨hupdate, hseen, hfresh, htwo⟩, hsteady, hposition⟩ := h
  exact ⟨window, last, ⟨hupdate, hseen, hfresh, htwo⟩, hsteady, hposition⟩

/-- A round that looks at the detections. -/
theorem History.traces (h : History settings conv events t) {v : TeacherWorkingThread}
    {before : List Output}
    (htraces : Traces settings conv r { t with sem := t.sem - 1 } v before) :
    History settings conv
      (⟨t, .round r, { v with tasks := v.tasks.tail },
        before ++ v.tasks.head?.toList.map .handle⟩ :: events)
      { v with tasks := v.tasks.tail } := by
  have hquiet : ∀ u : TeacherWorkingThread,
      Quiet ⟨t, .round r, u, [] ++ v.tasks.head?.toList.map Output.handle⟩ :=
    fun _ c => quiet_handles v.tasks.head?.toList c
  cases htraces with
  | @aim p position hstate hsteady =>
      refine ⟨fun _ hptz => ?_, TeacherImplRunningState.noConfusion⟩
      obtain ⟨ptz, state, ptTraceLast, toClose, data, tasks, sem, runningState⟩ := t
      cases ptz with
      | false => cases hptz
      | true =>
          refine ⟨position, rfl, [], _, events, rfl, ⟨hstate, ⟨r, rfl, hsteady.ofTaken⟩, ?_⟩, ?_⟩
          · exact ⟨tasks.head?.toList, rfl⟩
          · exact fun _ hmem => absurd hmem List.not_mem_nil
  | stay hp hclose =>
      exact h.keep (e := ⟨t, .round r, _, _⟩) rfl rfl rfl (hquiet _) fun hs _ => hclose hs
  | reset hstate =>
      obtain ⟨hstate', hptz, htoClose⟩ := resetPtz_same r.getValue { t with sem := t.sem - 1 }
      exact h.keep (e := ⟨t, .round r, _, _⟩) hstate' hptz htoClose (hquiet _) fun hs _ =>
        absurd (hstate.symm.trans hs) TeacherImplRunningState.noConfusion
  | @arrive p position hp hstate hptz hposition hnear =>
      refine ⟨TeacherImplRunningState.noConfusion, fun _ => ?_⟩
      obtain ⟨position', hposition', hturning⟩ := h.turning hstate hptz
      obtain rfl : position' = position := Option.some.inj (hposition'.symm.trans hposition)
      exact ⟨[], _, events, position', rfl, hturning, ⟨hstate, ⟨r, rfl, hnear⟩, hquiet _⟩,
        fun _ hmem => absurd hmem List.not_mem_nil⟩
  | back hstate =>
      exact ⟨TeacherImplRunningState.noConfusion, TeacherImplRunningState.noConfusion⟩

theorem history_step {i : Input} (h : History settings conv events t)
    (hstep : step settings conv t i = some (u, outs)) :
    History settings conv (⟨t, i, u, outs⟩ :: events) u := by
  cases i with
  | round r =>
      obtain ⟨-, v, before, hv, hu⟩ := round_cases hstep
      rw [execNext_eq, Prod.mk.injEq] at hu
      obtain ⟨rfl, rfl⟩ := hu
      split_ifs at hv with hlooks
      · exact h.traces hv
      · obtain ⟨rfl, rfl⟩ := hv
        exact h.keep (e := ⟨t, .round r, _, _⟩) rfl rfl rfl (quiet_handles _)
          fun _ hlooks' => absurd hlooks'.2 hlooks
  | setCamshiftPt stamp pt analyzeDuration =>
      cases hstep
      exact h.keep (e := ⟨t, _, _, _⟩) rfl rfl rfl (fun _ => List.not_mem_nil)
        fun _ ⟨⟨_, hround⟩, _⟩ => by cases hround
  | add task =>
      cases hstep
      exact h.keep (e := ⟨t, _, _, _⟩) rfl rfl rfl (fun _ => List.not_mem_nil)
        fun _ ⟨⟨_, hround⟩, _⟩ => by cases hround
  | setRunningState state =>
      cases hstep
      exact h.keep (e := ⟨t, _, _, _⟩) rfl rfl rfl (fun _ => List.not_mem_nil)
        fun _ ⟨⟨_, hround⟩, _⟩ => by cases hround

/-- The settings that are used when the configuration has none. -/
def usual : TracingSettings := ⟨⟨3, 660, 340⟩, 4 / 5⟩

/-- Both cameras have the same picture, and the target is always in the middle of it. -/
def sameView : Conversion := ⟨fun _ rc _ => (rc, 0, 0), fun _ _ => (10, 20)⟩

/-- A round at this time, with the camera at this position. -/
def roundAt (curr : ℚ) (arrived : ℤ × ℤ) : Input :=
  .round ⟨fun _ => none, curr, 0, ⟨0, 0, 0⟩, arrived⟩

/-- The target has been seen at this place. -/
def seenAt (stamp : ℚ) (x y : ℤ) : Input := .setCamshiftPt stamp ⟨toCInt x, toCInt y⟩ 10

/-- The target steps to and fro, and the camera turns to it. -/
def toAndFro : List Input :=
  [seenAt 1 100 50, seenAt 3 120 50, seenAt 5 100 50, roundAt 5 (0, 0), roundAt 5 (5, 20),
    roundAt 5 (9, 21), roundAt 5 (9, 21)]

theorem isSome_toAndFro :
    (play (step usual sameView) [] (create (fun _ => none) true) toAndFro).isSome = true := by
  decide +kernel

/-- The run of these events. -/
def toAndFroRun : List Occurrence × TeacherWorkingThread :=
  (play (step usual sameView) [] (create (fun _ => none) true) toAndFro).get isSome_toAndFro

/-- From this time on the target counts as gone. -/
def Gone (settings : TracingSettings) (t : TeacherWorkingThread) (curr : ℚ) : Prop :=
  ∃ window enough last,
    updateData settings.analyzeInterval t.teacherDetectedData = some (window, enough) ∧
      dataLastValid window = some last ∧ settings.timeToStopTracing < curr - last.stamp

theorem traceResult_of_late {window : List TeacherDetected} {enough : Bool}
    {last : TeacherDetected} (hlast : dataLastValid window = some last)
    (hlate : settings.timeToStopTracing < r.curr - last.stamp) :
    traceResult settings window enough r = .tooOldValidPt := by
  have hgone : r.curr - ((dataLastValid window).map TeacherDetected.stamp).getD
      r.lastValidStamp > settings.timeToStopTracing := by
    rw [hlast]
    exact hlate
  simp only [traceResult, if_pos hgone, reduceCtorEq, if_false]

/-- The task that sends the camera back. -/
def resetTask (getValue : CStr → Option CStr) : Ptz.Task :=
  .reset (intValue getValue "ptz_init_x" "0") (intValue getValue "ptz_init_y" "0")
    (intValue getValue "ptz_init_z" "5000")

/-- In the full view with a target that has gone, a round gives itself the token for the next
one, and ends where it has begun. -/
theorem round_of_gone (hstate : t.state = .fullview) (hptz : t.ptz = true)
    (hrunning : t.runningState = 0) (hlong : 2 ≤ t.teacherDetectedData.length)
    (hgone : Gone settings t r.curr) (htasks : t.tasks = []) (hsem : 0 < t.sem) :
    t.round settings conv r = some (t, [.handle (resetTask r.getValue)]) := by
  obtain ⟨window, enough, last, hupdate, hlast, hlate⟩ := hgone
  have hresult : traceResult settings window enough r = .tooOldValidPt :=
    traceResult_of_late hlast hlate
  obtain ⟨ptz, state, ptTraceLast, toClose, data, tasks, sem, runningState⟩ := t
  obtain rfl : ptz = true := hptz
  obtain rfl : state = .fullview := hstate
  obtain rfl : runningState = 0 := hrunning
  obtain rfl : tasks = [] := htasks
  obtain ⟨sem, rfl⟩ : ∃ k, sem = k + 1 := ⟨sem - 1, (Nat.sub_add_cancel hsem).symm⟩
  rw [round, if_neg (Nat.succ_ne_zero sem)]
  dsimp only
  rw [if_pos ⟨rfl, hlong⟩, trytrace, hupdate]
  change Option.map _ (if traceResult settings window enough r = .ok then _ else _) = _
  rw [hresult, if_neg TeacherTracingResult.noConfusion]
  rfl

/-- As time goes on the target stays gone. -/
theorem Gone.mono {curr later : ℚ} (h : Gone settings t curr) (hle : curr ≤ later) :
    Gone settings t later := by
  obtain ⟨window, enough, last, hupdate, hlast, hlate⟩ := h
  exact ⟨window, enough, last, hupdate, hlast, by linarith⟩

/-- As long as nothing else is called, a target that has gone keeps the thread awake: it
never waits again, and it sends the camera back in every round. -/
theorem keeps_awake {curr : ℚ} (hstate : t.state = .fullview) (hptz : t.ptz = true)
    (hrunning : t.runningState = 0) (hlong : 2 ≤ t.teacherDetectedData.length)
    (hgone : Gone settings t curr) (htasks : t.tasks = []) (hsem : 0 < t.sem)
    (rs : List Round) (hrs : ∀ r ∈ rs, curr ≤ r.curr) :
    ∃ events, Run (step settings conv) t events t ∧
      events.reverse.map EventRuns.Event.input = rs.map .round ∧
      outputs events = rs.map fun r => .handle (resetTask r.getValue) := by
  induction rs using List.reverseRecOn with
  | nil => exact ⟨[], .nil, rfl, rfl⟩
  | append_singleton rs r ih =>
      obtain ⟨hrs, hlast⟩ := List.forall_mem_append.mp hrs
      obtain ⟨events, hrun, hinputs, houtputs⟩ := ih hrs
      have hround : step settings conv t (.round r) =
          some (t, [.handle (resetTask r.getValue)]) :=
        round_of_gone hstate hptz hrunning hlong
          (hgone.mono (hlast r (List.mem_singleton_self r))) htasks hsem
      refine ⟨_, hrun.cons hround, ?_, ?_⟩
      · rw [List.reverse_cons, List.map_append, hinputs, List.map_append]
        rfl
      · rw [outputs_cons, houtputs, List.map_append]
        rfl

/-- The target is seen twice, and a round executes the task of the constructor. -/
def seenTwice : List Input := [seenAt 1 100 50, seenAt 2 100 50, roundAt 2 (0, 0)]

theorem isSome_seenTwice :
    (play (step usual sameView) [] (create (fun _ => none) true) seenTwice).isSome = true := by
  decide +kernel

/-- The thread after these events. -/
def seenTwiceThread : TeacherWorkingThread :=
  ((play (step usual sameView) [] (create (fun _ => none) true) seenTwice).get
    isSome_seenTwice).2

theorem gone_seenTwice : Gone usual seenTwiceThread 10 :=
  ⟨[⟨1, toCInt 100, toCInt 50⟩, ⟨2, toCInt 100, toCInt 50⟩], false,
    ⟨2, toCInt 100, toCInt 50⟩, by decide +kernel, by decide +kernel, by decide +kernel⟩

/-- Two rounds at a later time. -/
def lateRounds : List Round :=
  [⟨fun _ => none, 10, 0, ⟨0, 0, 0⟩, 0, 0⟩, ⟨fun _ => none, 11, 0, ⟨0, 0, 0⟩, 0, 0⟩]

theorem keeps_awake_seenTwice :
    ∃ events, Run (step usual sameView) seenTwiceThread events seenTwiceThread ∧
      events.reverse.map EventRuns.Event.input = lateRounds.map .round ∧
      outputs events = lateRounds.map fun r => .handle (resetTask r.getValue) := by
  refine keeps_awake (by decide +kernel) (by decide +kernel) (by decide +kernel)
    (by decide +kernel) gone_seenTwice (by decide +kernel) (by decide +kernel) lateRounds ?_
  intro r hr
  rcases List.mem_pair.mp hr with rfl | rfl
  · exact le_refl 10
  · decide +kernel

end TeacherWorkingThread

end LibSimple.Teacher
