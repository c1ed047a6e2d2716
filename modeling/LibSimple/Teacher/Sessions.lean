import LibSimple.Teacher.Following
import LibSimple.Teacher.Keys

/-!
# Sessions of the teacher tracking

What holds of a session however keys, mouse and frames come one after another: which mode
it is in, what a calibration leaves behind, and that the camera of the session is still
the one that follows the teacher.
-/

namespace LibSimple.Teacher

open CLang EventRuns Debounce

/-- One of the three states in which the keys have the camera. -/
def State.Adjusting (s : State) : Prop :=
  s = .ptziniting ∨ s = .ptzinitLeft ∨ s = .ptzinitRight

instance (s : State) : Decidable s.Adjusting := inferInstanceAs (Decidable (_ ∨ _ ∨ _))

theorem State.Calibrating.not_adjusting {s : State} (hs : s.Calibrating) : ¬ s.Adjusting := by
  rcases hs with rfl | rfl | rfl
  · decide
  · decide
  · decide

theorem State.Calibrating.ne_running {s : State} (hs : s.Calibrating) : s ≠ .running := by
  rintro rfl
  rcases hs with h | h | h
  · cases h
  · cases h
  · cases h

theorem State.Adjusting.not_calibrating {s : State} (hs : s.Adjusting) : ¬ s.Calibrating :=
  fun hcal => hcal.not_adjusting hs

theorem not_calibrating_running : ¬ State.running.Calibrating := fun h => h.ne_running rfl

theorem not_adjusting_running : ¬ State.running.Adjusting := by decide

/-- The state that a key asks for to click points in. -/
def calibrationState (key : ℤ) : Option State :=
  if key = 'c'.toNat then some .calibrating
  else if key = 'b'.toNat then some .calibrating2
  else if key = 'd'.toNat then some .calibrating3
  else none

theorem calibrating_of_calibrationState {key : ℤ} {state : State}
    (h : calibrationState key = some state) : state.Calibrating := by
  rw [calibrationState] at h
  split_ifs at h
  · cases h
    exact .inl rfl
  · cases h
    exact .inr (.inl rfl)
  · cases h
    exact .inr (.inr rfl)

namespace Session

variable {Config : Type} {kv : KVConfig Config} {policy : TracePolicy}

/-! ## What one call does -/

/-- What `one_frame` hands on. -/
def detectedData (r : List Pos) (now : ℚ) : DetectedData := ⟨!r.isEmpty, now, r⟩

/-- The keys under which the areas are kept. -/
def areaKeys : List CStr := [calibrationData, calibrationData2, calibrationData3]

/-- What a call does to a session: points are clicked between a key and ENTER or ESC, the
camera is taken and given back, a frame is looked at, or nothing changes. -/
inductive Happens (kv : KVConfig Config) (policy : TracePolicy) (s : Session Config) :
    Input → Session Config → List Effect → Prop
  | begins {key shift pos state} (hkey : calibrationState key = some state)
      (hs : s.running.state = .running) :
      Happens kv policy s (.key key shift pos)
        { s with running :=
          { s.running with state := state, calibrations := [], enableMask := false } } []
  | clicks {pt} (hs : s.running.state.Calibrating) :
      Happens kv policy s (.mouseDetected lbuttonup pt)
        { s with running :=
          { s.running with calibrations := s.running.calibrations ++ [pt] } } []
  | saves {shift pos r} (hs : s.running.state.Calibrating)
      (hr : keyCalibratingHandle kv s.running 13 = some r) :
      Happens kv policy s (.key 13 shift pos) { s with running := r } []
  | escapes {shift pos} (hs : s.running.state.Calibrating) :
      Happens kv policy s (.key 27 shift pos)
        { s with running := { s.running with state := .running, enableMask := true } } []
  | takes {key shift pos state effects} (hs : s.running.state = .running)
      (hstate : state.Adjusting) (heffects : s.ptz.ptz = false → effects = []) :
      Happens kv policy s (.key key shift pos)
        { s with
          running := { s.running with state := state }
          ptz := { s.ptz with runningState := 1, reseted := false } } effects
  | adjusts {i effects} (hframe : ∀ r now, i ≠ .oneImage r now)
      (hs : s.running.state.Adjusting) (heffects : s.ptz.ptz = false → effects = []) :
      Happens kv policy s i s effects
  | returns {key shift pos cfg} (hs : s.running.state.Adjusting)
      (hcfg : ∀ key ∈ areaKeys, kv.getValue cfg key = kv.getValue s.running.cfg key) :
      Happens kv policy s (.key key shift pos)
        { s with
          running := { s.running with cfg := cfg, state := .running }
          ptz := { s.ptz with runningState := 0 } } []
  | frames {r now ptz tasks}
      (hptz : s.ptz.setDetectedData policy (kv.getValue s.running.cfg) (detectedData r now) =
        some (ptz, tasks)) :
      Happens kv policy s (.oneImage r now)
        { s with ptz := ptz, switcher := switch ptz s.switcher } (tasks.map Effect.add)
  | nothing {i} (hframe : ∀ r now, i ≠ .oneImage r now)
      (hkey : ∀ shift pos, s.running.state.Calibrating →
        i ≠ .key 13 shift pos ∧ i ≠ .key 27 shift pos ∧
          ∀ pt, i ≠ .mouseDetected lbuttonup pt) :
      Happens kv policy s i s []

theorem getValue_setInt (cfg : Config) {key : String} (value : ℤ) {other : CStr}
    (hne : other ≠ .ofString key) :
    kv.getValue (setInt kv cfg key value) other = kv.getValue cfg other :=
  kv.getValue_setValue_ne _ _ hne

/-- A call in a session. -/
abbrev Moment (Config : Type) := EventRuns.Event (Session Config) Input Effect

variable {s t : Session Config} {i : Input} {effects : List Effect}

theorem keyRunningHandle_happens {key : ℤ} {shift : Bool} {pos : Position}
    (hs : s.running.state = .running) :
    Happens kv policy s (.key key shift pos) (s.keyRunningHandle kv key).1
      (s.keyRunningHandle kv key).2 := by
  rw [keyRunningHandle]
  split_ifs with hc hb hd hp hl hr
  · exact .begins (by rw [calibrationState, if_pos hc]) hs
  · exact .begins (by rw [calibrationState, if_neg hc, if_pos hb]) hs
  · exact .begins (by rw [calibrationState, if_neg hc, if_neg hb, if_pos hd]) hs
  · refine .takes hs (.inl rfl) fun hptz => ?_
    rw [stops, hptz]
    rfl
  · refine .takes hs (.inr (.inl rfl)) fun hptz => ?_
    rw [stops, turnLeftEdge, hptz]
    rfl
  · refine .takes hs (.inr (.inr rfl)) fun hptz => ?_
    rw [stops, turnRightEdge, hptz]
    rfl
  · exact .nothing (fun _ _ => Input.noConfusion) fun _ _ hcal => absurd hs hcal.ne_running

theorem adds_of_not_ptz (hptz : s.ptz.ptz = false) (task : Option Ptz.Task) :
    s.adds task = [] := by
  rw [adds, hptz, if_neg Bool.false_ne_true]

theorem keyPtzinitLeftRightHandle_happens {key : ℤ} {shift : Bool} {pos : Position}
    (hs : s.running.state.Adjusting) :
    Happens kv policy s (.key key shift pos) (s.keyPtzinitLeftRightHandle kv key shift pos).1
      (s.keyPtzinitLeftRightHandle kv key shift pos).2 := by
  have hadds : ∀ task, Happens kv policy s (.key key shift pos) s (s.adds task) :=
    fun task => .adjusts (fun _ _ => Input.noConfusion) hs fun hptz => adds_of_not_ptz hptz task
  have hcfg : ∀ key ∈ areaKeys, kv.getValue
      (if s.ptz.ptz then
        kv.saveAs
          (if s.running.state = .ptzinitLeft then setInt kv s.running.cfg "ptz_left" pos.h
          else setInt kv s.running.cfg "ptz_right" pos.h)
      else s.running.cfg) key = kv.getValue s.running.cfg key := by
    intro key hkey
    have hleft : ∀ key ∈ areaKeys, key ≠ .ofString "ptz_left" := by decide
    have hright : ∀ key ∈ areaKeys, key ≠ .ofString "ptz_right" := by decide
    split_ifs
    · rw [kv.getValue_saveAs, getValue_setInt _ _ (hleft key hkey)]
    · rw [kv.getValue_saveAs, getValue_setInt _ _ (hright key hkey)]
    · rfl
  rw [keyPtzinitLeftRightHandle]
  dsimp only
  generalize (if shift = true then (100 : ℤ) else 200) = moveTimeout
  generalize (if s.ptz.ptz = true then _ else s.running.cfg) = cfg at hcfg ⊢
  split_ifs
  · exact .returns hs fun _ _ => rfl
  · exact .returns hs hcfg
  · exact hadds _
  · exact hadds _
  · exact .nothing (fun _ _ => Input.noConfusion) fun _ _ hcal => absurd hs hcal.not_adjusting

theorem keyPtzinitingHandle_happens {key : ℤ} {shift : Bool} {pos : Position}
    (hs : s.running.state.Adjusting) :
    Happens kv policy s (.key key shift pos) (s.keyPtzinitingHandle kv key shift pos).1
      (s.keyPtzinitingHandle kv key shift pos).2 := by
  have hadds : ∀ task, Happens kv policy s (.key key shift pos) s (s.adds task) :=
    fun task => .adjusts (fun _ _ => Input.noConfusion) hs fun hptz => adds_of_not_ptz hptz task
  have hcfg : ∀ key ∈ areaKeys, kv.getValue
      (if s.ptz.ptz then
        kv.saveAs (setInt kv (setInt kv (setInt kv s.running.cfg "ptz_init_x" pos.h)
          "ptz_init_y" pos.v) "ptz_init_z" pos.z)
      else s.running.cfg) key = kv.getValue s.running.cfg key := by
    intro key hkey
    have hx : ∀ key ∈ areaKeys, key ≠ .ofString "ptz_init_x" := by decide
    have hy : ∀ key ∈ areaKeys, key ≠ .ofString "ptz_init_y" := by decide
    have hz : ∀ key ∈ areaKeys, key ≠ .ofString "ptz_init_z" := by decide
    split_ifs
    · rw [kv.getValue_saveAs, getValue_setInt _ _ (hz key hkey),
        getValue_setInt _ _ (hy key hkey), getValue_setInt _ _ (hx key hkey)]
    · rfl
  rw [keyPtzinitingHandle]
  dsimp only
  generalize (if shift = true then (50 : ℤ) else 250) = moveTimeout
  generalize (if s.ptz.ptz = true then _ else s.running.cfg) = cfg at hcfg ⊢
  split_ifs
  · exact .returns hs fun _ _ => rfl
  · exact .returns hs hcfg
  · exact hadds _
  · exact hadds _
  · exact hadds _
  · exact hadds _
  · exact hadds _
  · exact hadds _
  · exact hadds _
  · exact hadds _
  · exact .nothing (fun _ _ => Input.noConfusion) fun _ _ hcal => absurd hs hcal.not_adjusting

theorem keyHandle_calibrating {key : ℤ} {shift : Bool} {pos : Position}
    (hs : s.running.state.Calibrating) :
    s.keyHandle kv key shift pos =
      (keyCalibratingHandle kv s.running key).map fun r => ({ s with running := r }, []) := by
  rw [keyHandle]
  rcases hs with hs | hs | hs
  · rw [hs]
  · rw [hs]
  · rw [hs]

theorem keyHandle_happens {key : ℤ} {shift : Bool} {pos : Position}
    (h : s.keyHandle kv key shift pos = some (t, effects)) :
    Happens kv policy s (.key key shift pos) t effects := by
  have hpair : ∀ r : Session Config × List Effect, some r = some (t, effects) →
      Happens kv policy s (.key key shift pos) r.1 r.2 →
        Happens kv policy s (.key key shift pos) t effects := by
    rintro r heq hr
    obtain rfl := Option.some.inj heq
    exact hr
  by_cases hcal : s.running.state.Calibrating
  · rw [keyHandle_calibrating hcal, Option.map_eq_some_iff] at h
    obtain ⟨r, hr, heq⟩ := h
    cases heq
    by_cases hesc : key = 27
    · subst hesc
      rw [keyCalibratingHandle, if_pos rfl] at hr
      cases hr
      exact .escapes hcal
    · by_cases henter : key = 13
      · subst henter
        exact .saves hcal hr
      · rw [keyCalibratingHandle, if_neg hesc, if_neg henter] at hr
        cases hr
        refine .nothing (fun _ _ => Input.noConfusion) fun shift' pos' _ =>
          ⟨?_, ?_, fun pt => Input.noConfusion⟩
        · rintro heq
          cases heq
          exact henter rfl
        · rintro heq
          cases heq
          exact hesc rfl
  · rw [keyHandle] at h
    cases hs : s.running.state with
    | running =>
        rw [hs] at h
        exact hpair _ h (keyRunningHandle_happens hs)
    | calibrating => exact absurd (.inl hs) hcal
    | calibrating2 => exact absurd (.inr (.inl hs)) hcal
    | calibrating3 => exact absurd (.inr (.inr hs)) hcal
    | ptzinitLeft =>
        rw [hs] at h
        exact hpair _ h (keyPtzinitLeftRightHandle_happens (.inr (.inl hs)))
    | ptzinitRight =>
        rw [hs] at h
        exact hpair _ h (keyPtzinitLeftRightHandle_happens (.inr (.inr hs)))
    | ptziniting =>
        rw [hs] at h
        exact hpair _ h (keyPtzinitingHandle_happens (.inl hs))

theorem mouseDetected_happens (ev : ℤ) (pt : CvPoint) :
    Happens kv policy s (.mouseDetected ev pt) (s.mouseDetected ev pt) [] := by
  have hother : ¬ s.running.state.Calibrating →
      Happens kv policy s (.mouseDetected ev pt) s [] :=
    fun hcal => .nothing (fun _ _ => Input.noConfusion) fun _ _ h => absurd h hcal
  have hclick : s.running.state.Calibrating →
      Happens kv policy s (.mouseDetected ev pt)
        (if ev = lbuttonup then
          { s with running :=
            { s.running with calibrations := s.running.calibrations ++ [pt] } }
        else s) [] := by
    intro hcal
    split_ifs with hev
    · subst hev
      exact .clicks hcal
    · refine .nothing (fun _ _ => Input.noConfusion) fun _ _ _ =>
        ⟨Input.noConfusion, Input.noConfusion, fun pt' heq => hev ?_⟩
      cases heq
      rfl
  rw [mouseDetected]
  cases hs : s.running.state with
  | running => exact hother fun h => h.ne_running hs
  | calibrating => exact hclick (.inl hs)
  | calibrating2 => exact hclick (.inr (.inl hs))
  | calibrating3 => exact hclick (.inr (.inr hs))
  | ptzinitLeft => exact hother fun h => h.not_adjusting (.inr (.inl hs))
  | ptzinitRight => exact hother fun h => h.not_adjusting (.inr (.inr hs))
  | ptziniting => exact hother fun h => h.not_adjusting (.inl hs)

theorem mouseTraced_happens {ev x y : ℤ} (h : s.mouseTraced kv ev x y = some effects) :
    Happens kv policy s (.mouseTraced ev x y) s effects := by
  rw [mouseTraced] at h
  split_ifs at h with htraced
  · dsimp only at h
    split_ifs at h
    cases h
    exact .adjusts (fun _ _ => Input.noConfusion) (.inl htraced.1) fun hptz =>
      adds_of_not_ptz hptz _
  · cases h
    exact .nothing (fun _ _ => Input.noConfusion) fun _ _ _ =>
      ⟨Input.noConfusion, Input.noConfusion, fun _ => Input.noConfusion⟩

/-- What a step of a session can do. -/
theorem step_happens (h : step kv policy s i = some (t, effects)) :
    Happens kv policy s i t effects := by
  cases i with
  | key key shift pos => exact keyHandle_happens h
  | mouseDetected ev pt =>
      cases h
      exact mouseDetected_happens ev pt
  | mouseTraced ev x y =>
      obtain ⟨effects', htraced, heq⟩ := Option.map_eq_some_iff.mp h
      cases heq
      exact mouseTraced_happens htraced
  | oneImage r now =>
      obtain ⟨⟨ptz, tasks⟩, hptz, heq⟩ := Option.bind_eq_some_iff.mp h
      cases heq
      exact .frames hptz

/-! ## The modes -/

/-- How the flags of a session belong together. -/
structure Modes (s : Session Config) : Prop where
  enableMask : s.running.enableMask = false ↔ s.running.state.Calibrating
  runningState : s.ptz.runningState = if s.running.state.Adjusting then 1 else 0
  reseted : s.running.state.Adjusting → s.ptz.reseted = false
  switcher : s.switcher = .closeview ↔ s.ptz.stable = true

/-- What a frame leaves alone, and that the camera is not sent back while the keys
have it. -/
theorem setDetectedData_keeps {getValue : CStr → Option CStr} {p u : Tracker}
    {data : DetectedData} {tasks : List Ptz.Task}
    (h : p.setDetectedData policy getValue data = some (u, tasks)) :
    u.runningState = p.runningState ∧ u.ptz = p.ptz ∧
      (p.runningState ≠ 0 → p.reseted = false → u.reseted = false) ∧
      (p.ptz = false → tasks = []) := by
  cases Tracker.setDetectedData_outcome h with
  | found hvalid hisValid hareas htasks =>
      refine ⟨rfl, rfl, fun _ _ => rfl, fun hptz => ?_⟩
      rw [hptz, Bool.and_false, if_neg Bool.false_ne_true] at htasks
      exact htasks
  | missing hvalid hisValid => exact ⟨rfl, rfl, fun _ _ => rfl, fun _ => rfl⟩
  | lost hisValid hstable hreset => exact ⟨rfl, rfl, fun _ h => h, fun _ => rfl⟩
  | reset hisValid hlong hrunning hreseted =>
      refine ⟨rfl, rfl, fun hne => absurd hrunning hne, fun hptz => ?_⟩
      rw [Tracker.resetPtz, hptz, if_neg Bool.false_ne_true]

theorem switch_eq_closeview (ptz : Tracker) (switcher : SwitchTo) :
    switch ptz switcher = .closeview ↔ ptz.stable = true := by
  cases switcher with
  | fullview =>
      rw [switch, Tracker.isStable]
      split_ifs with h <;> simp [h]
  | closeview =>
      rw [switch, Tracker.isStable]
      cases h : ptz.stable with
      | true => simp
      | false => simp

/-- The device stays, and without one the camera is told nothing. -/
theorem Happens.ptz (h : Happens kv policy s i t effects) :
    t.ptz.ptz = s.ptz.ptz ∧ (s.ptz.ptz = false → effects = []) := by
  cases h with
  | begins hkey hrunning => exact ⟨rfl, fun _ => rfl⟩
  | clicks hcal => exact ⟨rfl, fun _ => rfl⟩
  | saves hcal hr => exact ⟨rfl, fun _ => rfl⟩
  | escapes hcal => exact ⟨rfl, fun _ => rfl⟩
  | takes hrunning hadj heffects => exact ⟨rfl, heffects⟩
  | adjusts hframe hadj heffects => exact ⟨rfl, heffects⟩
  | returns hadj hcfg => exact ⟨rfl, fun _ => rfl⟩
  | frames hptz =>
      obtain ⟨-, hsame, -, hnone⟩ := setDetectedData_keeps hptz
      refine ⟨hsame, fun hfalse => ?_⟩
      rw [hnone hfalse]
      rfl
  | nothing => exact ⟨rfl, fun _ => rfl⟩

theorem Modes.happens (hs : Modes s) (h : Happens kv policy s i t effects) : Modes t := by
  cases h with
  | begins hkey hrunning =>
      have hcal := calibrating_of_calibrationState hkey
      have hstate := hs.runningState
      rw [hrunning, if_neg (by decide)] at hstate
      refine ⟨iff_of_true rfl hcal, ?_, fun h => absurd h hcal.not_adjusting, hs.switcher⟩
      dsimp only
      rw [if_neg hcal.not_adjusting, hstate]
  | clicks hcal => exact ⟨hs.enableMask, hs.runningState, hs.reseted, hs.switcher⟩
  | @saves _ _ r hcal hr =>
      rw [keyCalibratingHandle_enter, Option.map_eq_some_iff] at hr
      obtain ⟨cfg, -, rfl⟩ := hr
      have hstate := hs.runningState
      rw [if_neg hcal.not_adjusting] at hstate
      refine ⟨iff_of_false Bool.true_eq_false.mp not_calibrating_running, ?_, ?_, hs.switcher⟩
      · exact hstate
      · exact fun h => absurd h not_adjusting_running
  | escapes hcal =>
      have hstate := hs.runningState
      rw [if_neg hcal.not_adjusting] at hstate
      exact ⟨iff_of_false Bool.true_eq_false.mp not_calibrating_running, hstate,
        fun h => absurd h not_adjusting_running, hs.switcher⟩
  | takes hrunning hadj heffects =>
      have hmask : s.running.enableMask ≠ false := fun h =>
        (hs.enableMask.mp h).ne_running hrunning
      exact ⟨iff_of_false hmask (State.Adjusting.not_calibrating hadj), (if_pos hadj).symm,
        fun _ => rfl, hs.switcher⟩
  | adjusts hframe hadj heffects => exact hs
  | returns hadj hcfg =>
      have hmask : s.running.enableMask ≠ false := fun h =>
        (State.Adjusting.not_calibrating hadj) (hs.enableMask.mp h)
      exact ⟨iff_of_false hmask not_calibrating_running, rfl,
        fun h => absurd h not_adjusting_running, hs.switcher⟩
  | frames hptz =>
      obtain ⟨hstate, -, hreseted, -⟩ := setDetectedData_keeps hptz
      refine ⟨hs.enableMask, hstate.trans hs.runningState, fun hadj => ?_,
        switch_eq_closeview _ _⟩
      refine hreseted ?_ (hs.reseted hadj)
      rw [hs.runningState, if_pos hadj]
      exact one_ne_zero
  | nothing => exact hs

theorem modes_create (cfg : Config) (ptz : Bool) (hori : ℤ → ℤ) :
    Modes (create kv cfg ptz hori) where
  enableMask := iff_of_false Bool.true_eq_false.mp not_calibrating_running
  runningState := rfl
  reseted := fun _ => rfl
  switcher := iff_of_false SwitchTo.noConfusion Bool.false_ne_true

/-- A configuration with one area, 300 wide. -/
def oneArea : CStr → Option CStr := fun key =>
  if key = calibrationData2 then some (.ofString "0,0;0,9;300,9;300,0;") else none

/-- A session with this configuration and a device. -/
def fresh : Session (CStr → Option CStr) := create plainConfig oneArea true id

/-- A key without shift, while the device is at its origin. -/
def pressed (key : ℤ) : Input := .key key false ⟨0, 0, 0⟩

/-- A frame with somebody around this place. -/
def framed (now : ℚ) (place : ℤ) : Input := .oneImage [⟨place - 10, place + 10⟩] now

/-- The corner is clicked as the area of the second key. -/
def clickingCorner : List Input :=
  pressed 'b'.toNat :: (corner.map (.mouseDetected lbuttonup) ++ [framed 1 50, pressed 13])

/-- After that the camera is moved while the teacher is in the picture. -/
def movingCamera : List Input :=
  [framed 2 50, pressed 'p'.toNat, framed 3 60, pressed 0x250000, framed 4 70, pressed 13]

theorem isSome_movingCamera :
    (play (step plainConfig Tracker.usual) [] fresh (clickingCorner ++ movingCamera)).isSome =
      true := by
  decide +kernel

/-- The place of a click in the window of the detection. -/
def Input.click? : Input → Option CvPoint
  | .mouseDetected ev pt => if ev = lbuttonup then some pt else none
  | _ => none

/-- The points that have been clicked, in their order. -/
def clicked (events : List (Moment Config)) : List CvPoint :=
  events.reverse.filterMap fun e => e.input.click?

/-- Neither ENTER nor ESC. -/
def Input.Stays : Input → Prop
  | .key k _ _ => k ≠ 13 ∧ k ≠ 27
  | _ => True

instance : DecidablePred Input.Stays
  | .key k _ _ => inferInstanceAs (Decidable (k ≠ 13 ∧ k ≠ 27))
  | .mouseDetected _ _ => inferInstanceAs (Decidable True)
  | .mouseTraced _ _ _ => inferInstanceAs (Decidable True)
  | .oneImage _ _ => inferInstanceAs (Decidable True)

theorem clicked_cons (e : Moment Config) (events : List (Moment Config)) :
    clicked (e :: events) = clicked events ++ e.input.click?.toList := by
  rw [clicked, List.reverse_cons, List.filterMap_append, clicked]
  cases h : e.input.click? with
  | none => simp [h]
  | some pt => simp [h]

/-- The calibration has begun in `s`, and these points have been clicked since. -/
def Clicking (s : Session Config) (state : State) (points : List CvPoint)
    (t : Session Config) : Prop :=
  t.running = { s.running with state := state, calibrations := points, enableMask := false }

theorem Clicking.happens {state : State} {points : List CvPoint} {u : Session Config}
    (hstate : state.Calibrating) (ht : Clicking s state points t) (hstays : i.Stays)
    (h : Happens kv policy t i u effects) : Clicking s state (points ++ i.click?.toList) u := by
  have hcal : t.running.state = state := by rw [ht]
  have hsame : i.click? = none → u.running = t.running →
      Clicking s state (points ++ i.click?.toList) u := by
    intro hnone hu
    rw [Clicking, hu, ht, hnone, Option.toList_none, List.append_nil]
  cases h with
  | begins hkey hrunning => exact absurd (hcal.symm.trans hrunning) hstate.ne_running
  | @clicks pt hs =>
      rw [Clicking, ht, Input.click?, if_pos rfl]
      rfl
  | saves hs hr => exact absurd rfl hstays.1
  | escapes hs => exact absurd rfl hstays.2
  | takes hrunning hadj heffects => exact absurd (hcal.symm.trans hrunning) hstate.ne_running
  | adjusts hframe hadj heffects => exact absurd (hcal ▸ hadj) hstate.not_adjusting
  | returns hadj hcfg => exact absurd (hcal ▸ hadj) hstate.not_adjusting
  | frames hptz => exact hsame rfl rfl
  | nothing hframe hnot =>
      refine hsame ?_ rfl
      obtain ⟨-, -, hclick⟩ := hnot false ⟨0, 0, 0⟩ (hcal ▸ hstate)
      cases i with
      | mouseDetected ev pt =>
          rw [Input.click?, if_neg]
          rintro rfl
          exact hclick pt rfl
      | key key shift pos => rfl
      | mouseTraced ev x y => rfl
      | oneImage r now => rfl

/-- Behind the key that begins a calibration. -/
theorem clicking_run {state : State} {during : List (Moment Config)}
    (hstate : state.Calibrating) (hs : Clicking s state [] t)
    {u : Session Config} (hrun : Run (step kv policy) t during u)
    (hstays : ∀ e ∈ during, e.input.Stays) : Clicking s state (clicked during) u := by
  revert hstays
  refine hrun.induct
    (P := fun events u => (∀ e ∈ events, e.input.Stays) → Clicking s state (clicked events) u)
    (fun _ => hs) ?_
  intro events u i v effects hrun ih hstep hstays
  rw [clicked_cons]
  exact (ih fun e he => hstays e (List.mem_cons_of_mem _ he)).happens hstate
    (hstays _ List.mem_cons_self) (step_happens hstep)

/-- The areas under these keys that are filled in a mask. -/
def areas (kv : KVConfig Config) (cfg : Config) (keys : List CStr) : List (List CvPoint) :=
  (keys.map (maskPoints kv cfg)).filter fun points => 3 < points.length

/-- The keys from which ENTER makes the mask. -/
def maskKeys (state : State) : List CStr :=
  if state = .calibrating then [calibrationData] else [calibrationData2, calibrationData3]

/-- The mask of some areas: white where nothing is left out. -/
def maskOf (masked : Bool) (areas : List (List CvPoint)) : Mask :=
  ⟨areas.isEmpty && !masked, areas⟩

/-- `build_mask_internal` adds its area, on black: the mask that it is given is black
already, or has no area yet. -/
theorem buildMaskInternal_eq (cfg : Config) (masked : Bool) (key : CStr) (img : Mask)
    (hblack : masked = true → img.white = false)
    (hempty : masked = false → img.polygons = []) :
    buildMaskInternal kv cfg masked key img =
      (!(areas kv cfg [key]).isEmpty,
        ⟨(areas kv cfg [key]).isEmpty && img.white, img.polygons ++ areas kv cfg [key]⟩) := by
  rw [buildMaskInternal]
  by_cases harea : 3 < (maskPoints kv cfg key).length
  · have hareas : areas kv cfg [key] = [maskPoints kv cfg key] := by simp [areas, harea]
    rw [if_pos harea, hareas]
    cases masked with
    | true =>
        obtain ⟨white, polygons⟩ := img
        obtain rfl : white = false := hblack rfl
        rfl
    | false =>
        rw [hempty rfl]
        rfl
  · have hareas : areas kv cfg [key] = [] := by simp [areas, harea]
    rw [if_neg harea, hareas, List.append_nil]
    rfl

theorem areas_pair (cfg : Config) (key key2 : CStr) :
    areas kv cfg [key, key2] = areas kv cfg [key] ++ areas kv cfg [key2] := by
  rw [areas, areas, areas, ← List.filter_append, ← List.map_append, List.singleton_append]

/-- The mask that the first key of `build_mask` makes. -/
theorem buildMaskInternal_first (cfg : Config) (masked : Bool) (key : CStr) :
    buildMaskInternal kv cfg masked key (if masked then cvZero else cvSet) =
      (!(areas kv cfg [key]).isEmpty, maskOf masked (areas kv cfg [key])) := by
  rw [buildMaskInternal_eq, maskOf]
  · cases masked with
    | true => simp [cvZero]
    | false => simp [cvSet]
  · intro h
    rw [if_pos h, cvZero]
  · intro h
    rw [h, if_neg Bool.false_ne_true, cvSet]

theorem buildMask_none (cfg : Config) (masked : Bool) (key : CStr) :
    (buildMask kv cfg masked key none).2 = maskOf masked (areas kv cfg [key]) :=
  congrArg Prod.snd (buildMaskInternal_first cfg masked key)

theorem buildMask_some (cfg : Config) (masked : Bool) (key key2 : CStr) :
    (buildMask kv cfg masked key (some key2)).2 = maskOf masked (areas kv cfg [key, key2]) := by
  rw [buildMask, buildMaskInternal_first]
  dsimp only
  rw [buildMaskInternal_eq, areas_pair, maskOf, maskOf]
  · cases areas kv cfg [key] with
    | nil => simp
    | cons points rest => simp
  · intro h
    rw [Bool.not_eq_true'] at h
    rw [maskOf, h, Bool.false_and]
  · intro h
    rwa [Bool.not_eq_false', List.isEmpty_iff] at h

/-- `build_mask` fills the areas of its keys. -/
theorem buildMask_eq (cfg : Config) (masked : Bool) (state : State) :
    (if state = .calibrating then buildMask kv cfg masked calibrationData none
      else buildMask kv cfg masked calibrationData2 (some calibrationData3)).2 =
        maskOf masked (areas kv cfg (maskKeys state)) := by
  rw [maskKeys]
  split_ifs with hstate
  · exact buildMask_none cfg masked calibrationData
  · exact buildMask_some cfg masked calibrationData2 calibrationData3

/-- What ENTER leaves behind when these points have been clicked in one of the states: with
enough of them they are what is read again under the key of the state, with too few the
first key is emptied instead; no other key changes, and the mask has the areas of the
configuration as it is now. -/
structure Saved (kv : KVConfig Config) (before : TeacherRunning Config) (state : State)
    (points : List CvPoint) (after : TeacherRunning Config) : Prop where
  running : after.state = .running
  enabled : after.enableMask = true
  readBack : 4 ≤ points.length → scanPoints (kv.getValue after.cfg state.key) = points
  removed : points.length < 4 →
    kv.getValue after.cfg calibrationData = some (.ofString "")
  kept : ∀ key, key ≠ (if points.length < 4 then calibrationData else state.key) →
    kv.getValue after.cfg key = kv.getValue before.cfg key
  filled : after.imgMask = maskOf before.masked (areas kv after.cfg (maskKeys state))

theorem Clicking.saves {state : State} {points : List CvPoint} {r : TeacherRunning Config}
    (hstate : state.Calibrating) (ht : Clicking s state points t)
    (hr : keyCalibratingHandle kv t.running 13 = some r) : Saved kv s.running state points r := by
  rw [Clicking] at ht
  have hcal : t.running.state.Calibrating := by
    rw [ht]
    exact hstate
  rw [keyCalibratingHandle_enter, Option.map_eq_some_iff] at hr
  obtain ⟨cfg, hsave, rfl⟩ := hr
  rw [saveCalibration_cases kv hcal, ht] at hsave
  dsimp only at hsave
  have hmask : ∀ cfg,
      (if t.running.state = .calibrating then
        buildMask kv cfg t.running.masked calibrationData none
      else buildMask kv cfg t.running.masked calibrationData2 (some calibrationData3)).2 =
        maskOf s.running.masked (areas kv cfg (maskKeys state)) := by
    intro cfg
    rw [buildMask_eq, ht]
  by_cases hfew : points.length < 4
  · rw [if_pos hfew] at hsave
    cases hsave
    refine ⟨rfl, rfl, fun h => absurd hfew (not_lt.mpr h), fun _ => ?_, ?_, hmask _⟩
    · dsimp only
      rw [kv.getValue_saveAs, kv.getValue_setValue]
    · intro key hkey
      rw [if_pos hfew] at hkey
      dsimp only
      rw [kv.getValue_saveAs, kv.getValue_setValue_ne _ _ hkey]
  · rw [if_neg hfew] at hsave
    split_ifs at hsave
    cases hsave
    refine ⟨rfl, rfl, fun _ => ?_, fun h => absurd h hfew, ?_, hmask _⟩
    · dsimp only
      rw [kv.getValue_saveAs, kv.getValue_setValue, scanPoints_pointsText]
    · intro key hkey
      rw [if_neg hfew] at hkey
      dsimp only
      rw [kv.getValue_saveAs, kv.getValue_setValue_ne _ _ hkey]

theorem keyHandle_begins {state : State} {key : ℤ} {shift : Bool} {pos : Position}
    (hs : s.running.state = .running) (hstate : calibrationState key = some state) :
    s.keyHandle kv key shift pos = some (s.beginCalibration state) := by
  rw [keyHandle, hs]
  dsimp only
  rw [keyRunningHandle]
  rw [calibrationState] at hstate
  split_ifs at hstate with hc hb hd
  · cases hstate
    rw [if_pos hc]
  · cases hstate
    rw [if_neg hc, if_pos hb]
  · cases hstate
    rw [if_neg hc, if_neg hb, if_pos hd]

theorem isSome_clickingCorner :
    (play (step plainConfig Tracker.usual) [] fresh clickingCorner).isSome = true := by
  decide +kernel

/-- The run of these inputs, and where it ends. -/
def cornerRun : List (Moment (CStr → Option CStr)) × Session (CStr → Option CStr) :=
  (play (step plainConfig Tracker.usual) [] fresh clickingCorner).get isSome_clickingCorner

theorem cornerRun_ne_nil : cornerRun.1 ≠ [] ∧ cornerRun.1.tail ≠ [] := by
  decide +kernel

end Session

end LibSimple.Teacher
