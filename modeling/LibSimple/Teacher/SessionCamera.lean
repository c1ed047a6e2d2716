import LibSimple.Teacher.Sessions

/-!
# The camera of a session

To its `TeacherPtz` a session is a run of frames and of calls of `set_running_state`; what
holds of those holds of keys, mouse and frames in any order.
-/

namespace LibSimple.Teacher

open CLang EventRuns Debounce

namespace Session

variable {Config : Type} {kv : KVConfig Config} {policy : TracePolicy}
  {s t : Session Config} {events : List (Moment Config)} {e : Moment Config}

/-! ## The tracker of a session -/

def Effect.task? : Effect → Option Ptz.Task
  | .add task => some task
  | .call _ => none

theorem tasks_add (tasks : List Ptz.Task) :
    (tasks.map Effect.add).filterMap Effect.task? = tasks := by
  rw [List.filterMap_map]
  exact List.filterMap_some

/-- What the tracker is told of a call: a frame, or that the keys have taken the camera or
given it back. -/
def notices (kv : KVConfig Config) (e : Moment Config) : List Tracker.Notice :=
  match e.input with
  | .oneImage r now =>
      [⟨e.before.ptz, .detected (kv.getValue e.before.running.cfg) (detectedData r now),
        e.after.ptz, e.outputs.filterMap Effect.task?⟩]
  | _ =>
      if e.before.running.state.Adjusting ↔ e.after.running.state.Adjusting then []
      else
        [⟨e.before.ptz, .runningState (if e.after.running.state.Adjusting then 1 else 0),
          e.after.ptz, []⟩]

theorem notices_of_same {i : Input} {effects : List Effect}
    (hframe : ∀ r now, i ≠ .oneImage r now)
    (hsame : s.running.state.Adjusting ↔ t.running.state.Adjusting) :
    notices kv ⟨s, i, t, effects⟩ = [] := by
  rw [notices]
  cases i with
  | oneImage r now => exact absurd rfl (hframe r now)
  | key k shift pos => exact if_pos hsame
  | mouseDetected ev pt => exact if_pos hsame
  | mouseTraced ev x y => exact if_pos hsame

theorem notices_key {key : ℤ} {shift : Bool} {pos : Position} {effects : List Effect}
    (hchange : ¬ (s.running.state.Adjusting ↔ t.running.state.Adjusting)) :
    notices kv ⟨s, .key key shift pos, t, effects⟩ =
      [⟨s.ptz, .runningState (if t.running.state.Adjusting then 1 else 0), t.ptz, []⟩] :=
  if_neg hchange

theorem tracker_step {i : Input} {effects : List Effect}
    (h : step kv policy s i = some (t, effects)) :
    Run (Tracker.step policy) s.ptz (notices kv ⟨s, i, t, effects⟩) t.ptz := by
  cases step_happens h with
  | begins hkey hrunning =>
      rw [notices_of_same fun _ _ => Input.noConfusion]
      · exact .nil
      · rw [hrunning]
        exact iff_of_false not_adjusting_running
          (calibrating_of_calibrationState hkey).not_adjusting
  | clicks hcal =>
      rw [notices_of_same fun _ _ => Input.noConfusion]
      · exact .nil
      · exact Iff.rfl
  | saves hcal hr =>
      rw [keyCalibratingHandle_enter, Option.map_eq_some_iff] at hr
      obtain ⟨cfg, -, rfl⟩ := hr
      rw [notices_of_same fun _ _ => Input.noConfusion]
      · exact .nil
      · exact iff_of_false hcal.not_adjusting not_adjusting_running
  | escapes hcal =>
      rw [notices_of_same fun _ _ => Input.noConfusion]
      · exact .nil
      · exact iff_of_false hcal.not_adjusting not_adjusting_running
  | takes hrunning hadj heffects =>
      rw [notices_key]
      · refine .cons .nil ?_
        dsimp only
        rw [if_pos hadj]
        rfl
      · rw [hrunning]
        exact fun h => not_adjusting_running (h.mpr hadj)
  | adjusts hframe hadj heffects =>
      rw [notices_of_same hframe Iff.rfl]
      exact .nil
  | returns hadj hcfg =>
      rw [notices_key fun h => not_adjusting_running (h.mp hadj)]
      exact .cons .nil rfl
  | @frames r now ptz tasks hptz =>
      refine .cons .nil ?_
      rw [Tracker.step, hptz, tasks_add]
  | nothing hframe hnot =>
      rw [notices_of_same hframe Iff.rfl]
      exact .nil

/-- The tracker of a session makes a run of its own. -/
theorem tracker_run (hrun : Run (step kv policy) s events t) :
    Run (Tracker.step policy) s.ptz (events.flatMap (notices kv)) t.ptz :=
  (hrun.simulate Session.ptz (notices kv) (P := fun _ => True) trivial
    fun _ _ _ _ _ h => ⟨trivial, tracker_step h⟩).2

/-! ## Sending the camera back -/

/-- A frame sends the camera back. -/
def SentBack (e : Moment Config) : Prop :=
  e.before.ptz.reseted = false ∧ e.after.ptz.reseted = true

instance (e : Moment Config) : Decidable (SentBack e) := inferInstanceAs (Decidable (_ ∧ _))

/-- The camera is sent back by a frame, while no key has it, and behind a loss that is
reported as long enough; and between two such frames the teacher has counted as detected
again, or a key has taken the camera. -/
structure SentBackOnce (kv : KVConfig Config) (policy : TracePolicy)
    (events : List (Moment Config)) : Prop where
  spec : ∀ e ∈ events, SentBack e →
    (∃ r now, e.input = .oneImage r now) ∧
      e.outputs = (Tracker.resetPtz (kv.getValue e.before.running.cfg)
        e.before.ptz.ptz).map .add ∧
      ¬ e.before.running.state.Adjusting ∧ e.after.ptz.timeoutChker.isValid = false ∧
      policy.timeToResetPtz < e.after.ptz.timeoutChker.invalidDuration
  between : ∀ later e₂ mid e₁ earlier, events = later ++ e₂ :: (mid ++ e₁ :: earlier) →
    SentBack e₁ → SentBack e₂ →
      ∃ e ∈ mid, e.after.ptz.timeoutChker.isValid = true ∨
        (e.before.running.state = .running ∧ e.after.running.state.Adjusting)

theorem SentBack.spec (hsent : SentBack e) (hmodes : Modes e.before)
    (hstep : step kv policy e.before e.input = some (e.after, e.outputs)) :
    (∃ r now, e.input = .oneImage r now) ∧
      e.outputs = (Tracker.resetPtz (kv.getValue e.before.running.cfg)
        e.before.ptz.ptz).map .add ∧
      ¬ e.before.running.state.Adjusting ∧ e.after.ptz.timeoutChker.isValid = false ∧
      policy.timeToResetPtz < e.after.ptz.timeoutChker.invalidDuration := by
  obtain ⟨before, input, after, outputs⟩ := e
  obtain ⟨hbefore, hafter⟩ := hsent
  dsimp only at hmodes hstep hbefore hafter ⊢
  have hother : before.ptz.reseted ≠ true := by
    rw [hbefore]
    exact Bool.false_ne_true
  cases step_happens hstep with
  | begins hkey hrunning => exact absurd hafter hother
  | clicks hcal => exact absurd hafter hother
  | saves hcal hr => exact absurd hafter hother
  | escapes hcal => exact absurd hafter hother
  | takes hrunning hadj heffects => cases hafter
  | adjusts hframe hadj heffects => exact absurd hafter hother
  | returns hadj hcfg => exact absurd hafter hother
  | @frames r now ptz tasks hptz =>
      obtain ⟨_, _, hinput, houtputs, hrunning, hvalid, hlong⟩ := Tracker.Resets.spec
        (e := ⟨before.ptz, .detected _ _, ptz, tasks⟩) ⟨hbefore, hafter⟩ hptz
      cases hinput
      refine ⟨⟨r, now, rfl⟩, congrArg _ houtputs, fun hadj => ?_, hvalid, hlong⟩
      have hstate := hmodes.runningState
      rw [if_pos hadj] at hstate
      exact one_ne_zero (hstate.symm.trans hrunning)
  | nothing hframe hnot => exact absurd hafter hother

/-- What lets the camera be sent back again. -/
theorem rearmed_of_lost (hstep : step kv policy e.before e.input = some (e.after, e.outputs))
    (hbefore : e.before.ptz.reseted = true) (hafter : ¬ e.after.ptz.reseted = true) :
    e.after.ptz.timeoutChker.isValid = true ∨
      (e.before.running.state = .running ∧ e.after.running.state.Adjusting) := by
  obtain ⟨before, input, after, outputs⟩ := e
  dsimp only at hstep hbefore hafter ⊢
  cases step_happens hstep with
  | begins hkey hrunning => exact absurd hbefore hafter
  | clicks hcal => exact absurd hbefore hafter
  | saves hcal hr => exact absurd hbefore hafter
  | escapes hcal => exact absurd hbefore hafter
  | takes hrunning hadj heffects => exact .inr ⟨hrunning, hadj⟩
  | adjusts hframe hadj heffects => exact absurd hbefore hafter
  | returns hadj hcfg => exact absurd hbefore hafter
  | @frames r now ptz tasks hptz =>
      rcases Tracker.rearms_of_lost (e := ⟨before.ptz, .detected _ _, ptz, tasks⟩) hptz hbefore
        hafter with hvalid | ⟨state, hinput, -⟩
      · exact .inl hvalid
      · cases hinput
  | nothing hframe hnot => exact absurd hbefore hafter

/-- A frame without anybody. -/
def emptyFrame (now : ℚ) : Input := .oneImage [] now

/-- Nobody is there, the camera is moved by hand, and still nobody is there. -/
def lostAndMoved : List Input :=
  [emptyFrame 1, emptyFrame 7, pressed 'l'.toNat, emptyFrame 8, pressed 27, emptyFrame 9]

theorem isSome_lostAndMoved :
    (play (step plainConfig Tracker.usual) [] fresh lostAndMoved).isSome = true := by
  decide +kernel

/-- The run of these inputs. -/
def lostAndMovedRun : List (Moment (CStr → Option CStr)) :=
  ((play (step plainConfig Tracker.usual) [] fresh lostAndMoved).get isSome_lostAndMoved).1

/-- The teacher is found in area `i` in a frame at `now`. -/
def FindsIn (e : Moment Config) (i : ℤ) (now : ℚ) : Prop :=
  ∃ r, e.input = .oneImage r now ∧ r ≠ [] ∧ e.after.ptz.timeoutChker.isValid = true ∧
    e.after.ptz.areas.lastAreaIndex = i

/-- The frame of an input. -/
def Input.sample? : Input → Option Sample
  | .oneImage r now => some ⟨!r.isEmpty, now⟩
  | _ => none

/-- The frames of a run, newest first. -/
def frames (events : List (Moment Config)) : List Sample :=
  events.filterMap fun e => e.input.sample?

variable (kv) in
theorem exists_notice_of_findsIn {i : ℤ} {now : ℚ} (h : FindsIn e i now) :
    ∃ n, notices kv e = [n] ∧ n.after = e.after.ptz ∧ Tracker.FindsIn n i now := by
  obtain ⟨before, input, after, outputs⟩ := e
  obtain ⟨r, hinput, hr, hvalid, hindex⟩ := h
  dsimp only at hinput
  subst hinput
  refine ⟨_, rfl, rfl, _, _, rfl, ?_, hvalid, hindex.symm, rfl⟩
  rw [detectedData, List.isEmpty_eq_false_iff.mpr hr]
  rfl

theorem samples_notices_event (e : Moment Config) :
    Tracker.samples (notices kv e) = e.input.sample?.toList := by
  obtain ⟨before, input, after, outputs⟩ := e
  have hother : Tracker.samples (if before.running.state.Adjusting ↔ after.running.state.Adjusting
      then []
      else [⟨before.ptz, .runningState (if after.running.state.Adjusting then 1 else 0), after.ptz,
        []⟩]) = [] := by
    by_cases hsame : before.running.state.Adjusting ↔ after.running.state.Adjusting
    · rw [if_pos hsame]
      rfl
    · rw [if_neg hsame]
      rfl
  cases input with
  | oneImage r now => rfl
  | key k shift pos => exact hother
  | mouseDetected ev pt => exact hother
  | mouseTraced ev x y => exact hother

/-- The tracker sees the frames of the session. -/
theorem samples_notices (events : List (Moment Config)) :
    Tracker.samples (events.flatMap (notices kv)) = frames events := by
  induction events with
  | nil => rfl
  | cons e events ih =>
      have happend : Tracker.samples ((e :: events).flatMap (notices kv)) =
          Tracker.samples (notices kv e) ++ Tracker.samples (events.flatMap (notices kv)) := by
        rw [List.flatMap_cons, Tracker.samples, List.filterMap_append]
        rfl
      rw [happend, samples_notices_event, ih, frames, frames, List.filterMap_cons]
      cases e.input.sample? with
      | none => rfl
      | some x => rfl

/-- Only a frame that finds the teacher makes the picture stable. -/
theorem exists_findsIn_of_stable
    (hstep : step kv policy e.before e.input = some (e.after, e.outputs))
    (hbefore : e.before.ptz.stable = false) (hafter : e.after.ptz.stable = true) :
    ∃ i now, FindsIn e i now := by
  obtain ⟨before, input, after, outputs⟩ := e
  dsimp only at hstep hbefore hafter
  have hother : before.ptz.stable ≠ true := by
    rw [hbefore]
    exact Bool.false_ne_true
  cases step_happens hstep with
  | begins hkey hrunning => exact absurd hafter hother
  | clicks hcal => exact absurd hafter hother
  | saves hcal hr => exact absurd hafter hother
  | escapes hcal => exact absurd hafter hother
  | takes hrunning hadj heffects => exact absurd hafter hother
  | adjusts hframe hadj heffects => exact absurd hafter hother
  | returns hadj hcfg => exact absurd hafter hother
  | @frames r now ptz tasks hptz =>
      obtain ⟨i, stamp, _, data, hinput, hvalid, hisValid, hindex, -⟩ :=
        Tracker.exists_findsIn_of_stable
          (e := ⟨before.ptz, .detected _ (detectedData r now), ptz, tasks⟩) hptz hbefore hafter
      cases hinput
      refine ⟨i, now, r, rfl, ?_, hisValid, hindex.symm⟩
      rintro rfl
      cases hvalid
  | nothing hframe hnot => exact absurd hafter hother

/-- The session switches to the camera only in a frame that finds the teacher, and when such
a frame leaves it there, the teacher has been found in no other area for
`time_to_closeview`. -/
structure CloseviewArea (policy : TracePolicy) (events : List (Moment Config)) : Prop where
  findsIn : ∀ e ∈ events, e.before.switcher = .fullview → e.after.switcher = .closeview →
    ∃ i now, FindsIn e i now
  same : ∀ later e earlier, events = later ++ e :: earlier → ∀ i now, FindsIn e i now →
    e.after.switcher = .closeview →
      ∀ e' ∈ earlier, ∀ j now', FindsIn e' j now' →
        now - now' ≤ policy.timeToCloseview → j = i

/-- In every session whose frames come in their order. -/
theorem closeview_area (hs : Modes s) (hstart : s.ptz.timeoutChker = .create)
    (hrun : Run (step kv policy) s events t) (hordered : Ordered (frames events)) :
    CloseviewArea policy events := by
  have hmodes : ∀ {u : Session Config} {earlier : List (Moment Config)},
      Run (step kv policy) s earlier u → Modes u := fun hu =>
    hu.invariant hs fun _ _ _ _ hmodes h => hmodes.happens (step_happens h)
  constructor
  · intro e he hbefore hafter
    obtain ⟨_, _, -, hearlier, hstep⟩ := hrun.of_mem he
    have hstable := (hmodes (hearlier.cons hstep)).switcher.mp hafter
    have hnot : e.before.ptz.stable = false := by
      rw [← Bool.not_eq_true, ← (hmodes hearlier).switcher, hbefore]
      exact SwitchTo.noConfusion
    exact exists_findsIn_of_stable hstep hnot hstable
  · rintro later e earlier rfl i now hfinds hafter e' he' j now' hfinds' hclose
    obtain ⟨u, hu, -⟩ := hrun.split
    obtain ⟨n, hn, hnafter, hnfinds⟩ := exists_notice_of_findsIn kv hfinds
    obtain ⟨n', hn', -, hnfinds'⟩ := exists_notice_of_findsIn kv hfinds'
    have htracker := tracker_run hrun
    rw [List.flatMap_append, List.flatMap_cons, hn, List.singleton_append] at htracker
    rw [← samples_notices, List.flatMap_append, List.flatMap_cons, hn, List.singleton_append]
      at hordered
    refine Tracker.same_area hstart htracker hordered hnfinds ?_
      (List.mem_flatMap.mpr ⟨e', he', hn' ▸ List.mem_singleton_self n'⟩) hnfinds' hclose
    rw [hnafter]
    obtain ⟨_, _, -, hearlier, hstep⟩ := hu.of_mem List.mem_cons_self
    exact (hmodes (hearlier.cons hstep)).switcher.mp hafter

/-- The teacher stays in the first area until the picture is stable, and goes on to the
next one. -/
def staying : List Input :=
  [framed 1 50, framed 2 50, framed 3 60, framed 4 60, framed 5 250, pressed 'b'.toNat,
    framed 6 250]

theorem isSome_staying :
    (play (step plainConfig Tracker.usual) [] fresh staying).isSome = true := by
  decide +kernel

/-- The run of these inputs. -/
def stayingRun : List (Moment (CStr → Option CStr)) :=
  ((play (step plainConfig Tracker.usual) [] fresh staying).get isSome_staying).1

theorem closeview_area_staying :
    (stayingRun.map fun e => e.after.switcher) =
        [.fullview, .fullview, .fullview, .closeview, .fullview, .fullview, .fullview] ∧
      CloseviewArea Tracker.usual stayingRun :=
  ⟨by decide +kernel,
    closeview_area (modes_create oneArea true id) rfl (run_of_isSome isSome_staying)
      ⟨by decide +kernel, by decide +kernel⟩⟩

/-! ## Moving the camera by hand -/

/-- The first box of a frame is in the segment of area `i`. -/
def InSegment (p : TeacherPtz) (i : ℤ) (r : List Pos) : Prop :=
  ∃ lr ∈ r.head?, p.Asserted lr ∧
    ∃ seg ∈ p.segments? i, seg.left ≤ p.offset lr ∧ p.offset lr ≤ seg.right

instance (p : TeacherPtz) (i : ℤ) (r : List Pos) : Decidable (InSegment p i r) :=
  inferInstanceAs (Decidable (∃ lr ∈ r.head?, p.Asserted lr ∧
    ∃ seg ∈ p.segments? i, seg.left ≤ p.offset lr ∧ p.offset lr ≤ seg.right))

/-- If the input is a frame, it has the teacher in the segment of area `i`. -/
def Input.In (p : TeacherPtz) (i : ℤ) : Input → Prop
  | .oneImage r _ => InSegment p i r
  | _ => True

instance (p : TeacherPtz) (i : ℤ) : DecidablePred (Input.In p i)
  | .key _ _ _ => inferInstanceAs (Decidable True)
  | .mouseDetected _ _ => inferInstanceAs (Decidable True)
  | .mouseTraced _ _ _ => inferInstanceAs (Decidable True)
  | .oneImage r _ => inferInstanceAs (Decidable (InSegment p i r))

theorem getAreaFromData_inSegment {p : TeacherPtz} {r : List Pos} (now : ℚ)
    (hin : InSegment p p.lastAreaIndex r) :
    (detectedData r now).valid = true ∧
      p.getAreaFromData (detectedData r now) = some (p, false) := by
  obtain ⟨lr, hlr, hasserted, seg, hseg, hleft, hright⟩ := hin
  obtain ⟨rest, rfl⟩ := List.head?_eq_some_iff.mp hlr
  have harea : p.areaChanged (p.offset lr) = some (p, false) := by
    have hne : p.lastAreaIndex ≠ -1 := by
      intro heq
      rw [heq] at hseg
      cases hseg
    rw [TeacherPtz.areaChanged, if_neg hne, Option.mem_def.mp hseg]
    simp only [Option.bind_eq_bind, Option.bind_some]
    rw [if_neg (not_lt.mpr hleft), if_neg (not_lt.mpr hright)]
  have hdata : (detectedData (lr :: rest) now).valid = true := rfl
  refine ⟨hdata, ?_⟩
  rw [TeacherPtz.getAreaFromData, if_pos hdata]
  exact (if_pos hasserted).trans harea

/-- A frame with the teacher in his segment. -/
theorem frame_inSegment {p u : Tracker} {getValue : CStr → Option CStr} {r : List Pos} {now : ℚ}
    {tasks : List Ptz.Task} (hvalid : p.timeoutChker.isValid = true)
    (hin : InSegment p.areas p.areas.lastAreaIndex r)
    (h : p.setDetectedData policy getValue (detectedData r now) = some (u, tasks)) :
    tasks = [] ∧ u.areas = p.areas ∧ u.timeoutChker.isValid = true := by
  obtain ⟨hdata, harea⟩ := getAreaFromData_inSegment now hin
  have hstamped : (p.timeoutChker.stamped (Tracker.sample (detectedData r now))).valid = true := by
    rw [(AreaDuration.stamped_spec _ _).valid]
    split_ifs
    · exact hdata
    · exact hvalid
  cases Tracker.setDetectedData_outcome h with
  | found hvalid' hisValid hareas htasks =>
      rw [harea] at hareas
      cases hareas
      exact ⟨htasks, rfl, (AreaDuration.setArea_spec _ _).2.1.trans hisValid⟩
  | missing hvalid' hisValid => exact absurd (hvalid'.symm.trans hdata) Bool.false_ne_true
  | lost hisValid hstable hreset => exact absurd (hisValid.symm.trans hstamped) Bool.false_ne_true
  | reset hisValid hlong hrunning hreseted =>
      exact absurd (hisValid.symm.trans hstamped) Bool.false_ne_true

/-- No frame turns the camera while the teacher stays in his area, wherever the keys have
moved it in the meantime. -/
theorem left_where_moved (hvalid : s.ptz.timeoutChker.isValid = true)
    (hrun : Run (step kv policy) s events t)
    (hin : ∀ e ∈ events, e.input.In s.ptz.areas s.ptz.areas.lastAreaIndex) :
    (∀ e ∈ events, ∀ r now, e.input = .oneImage r now → e.outputs = []) ∧
      t.ptz.areas = s.ptz.areas ∧ t.ptz.timeoutChker.isValid = true := by
  revert hin
  refine hrun.induct
    (P := fun events t => (∀ e ∈ events, e.input.In s.ptz.areas s.ptz.areas.lastAreaIndex) →
      (∀ e ∈ events, ∀ r now, e.input = .oneImage r now → e.outputs = []) ∧
        t.ptz.areas = s.ptz.areas ∧ t.ptz.timeoutChker.isValid = true)
    (fun _ => ⟨fun _ h => absurd h List.not_mem_nil, rfl, hvalid⟩) ?_
  intro events u i v effects hrun ih hstep hin
  obtain ⟨hquiet, hareas, hvalid⟩ := ih fun e he => hin e (List.mem_cons_of_mem _ he)
  have hlast := hin _ List.mem_cons_self
  -- The other calls leave the areas and the chker alone.
  have hsame : v.ptz.areas = u.ptz.areas → v.ptz.timeoutChker = u.ptz.timeoutChker →
      (∀ r now, i ≠ .oneImage r now) →
      (∀ e ∈ (⟨u, i, v, effects⟩ : Moment Config) :: events, ∀ r now,
        e.input = .oneImage r now → e.outputs = []) ∧
        v.ptz.areas = s.ptz.areas ∧ v.ptz.timeoutChker.isValid = true := by
    intro hv hchker hframe
    refine ⟨fun e he r now hinput => ?_, hv.trans hareas, by rw [hchker]; exact hvalid⟩
    rcases List.mem_cons.mp he with rfl | he
    · exact absurd hinput (hframe r now)
    · exact hquiet e he r now hinput
  cases step_happens hstep with
  | begins hkey hrunning => exact hsame rfl rfl fun _ _ => Input.noConfusion
  | clicks hcal => exact hsame rfl rfl fun _ _ => Input.noConfusion
  | saves hcal hr => exact hsame rfl rfl fun _ _ => Input.noConfusion
  | escapes hcal => exact hsame rfl rfl fun _ _ => Input.noConfusion
  | takes hrunning hadj heffects => exact hsame rfl rfl fun _ _ => Input.noConfusion
  | adjusts hframe hadj heffects => exact hsame rfl rfl hframe
  | returns hadj hcfg => exact hsame rfl rfl fun _ _ => Input.noConfusion
  | @frames r now ptz tasks hptz =>
      have hsegment : InSegment u.ptz.areas u.ptz.areas.lastAreaIndex r := by
        rw [hareas]
        exact hlast
      obtain ⟨rfl, hptzareas, hptzvalid⟩ := frame_inSegment hvalid hsegment hptz
      refine ⟨fun e he r now hinput => ?_, hptzareas.trans hareas, hptzvalid⟩
      rcases List.mem_cons.mp he with rfl | he
      · rfl
      · exact hquiet e he r now hinput
  | nothing hframe hnot => exact hsame rfl rfl hframe

/-- The teacher has been found in the first area. -/
def inFirstArea : List Input := [framed 1 50, framed 2 50]

theorem isSome_inFirstArea :
    (play (step plainConfig Tracker.usual) [] fresh inFirstArea).isSome = true := by
  decide +kernel

/-- The session in which he has. -/
def standingSession : Session (CStr → Option CStr) :=
  ((play (step plainConfig Tracker.usual) [] fresh inFirstArea).get isSome_inFirstArea).2

/-- The camera is sent to its initial position and turned to the left, and he stays. -/
def movedAway : List Input :=
  [pressed 'p'.toNat, framed 3 60, pressed 0x250000, framed 4 70, pressed 13, framed 5 60]

theorem isSome_movedAway :
    (play (step plainConfig Tracker.usual) [] standingSession movedAway).isSome = true := by
  decide +kernel

/-- The run of these inputs, and where it ends. -/
def movedAwayRun : List (Moment (CStr → Option CStr)) × Session (CStr → Option CStr) :=
  (play (step plainConfig Tracker.usual) [] standingSession movedAway).get isSome_movedAway

theorem left_where_moved_away :
    (∀ e ∈ movedAwayRun.1, ∀ r now, e.input = .oneImage r now → e.outputs = []) ∧
      movedAwayRun.2.ptz.areas = standingSession.ptz.areas ∧
      movedAwayRun.2.ptz.timeoutChker.isValid = true :=
  left_where_moved (by decide +kernel) (run_of_isSome isSome_movedAway) (by decide +kernel)

end Session

end LibSimple.Teacher
