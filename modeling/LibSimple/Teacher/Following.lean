import LibSimple.Teacher.Control
import LibSimple.Teacher.OverReport

/-!
# Following the teacher for a while

What holds of the frames that `set_detected_data` has been told of, one after another.
The camera is sent back once for each loss of the teacher, and only after a loss that was
long enough; its newest task turns it to the area in which the teacher is; and the picture
is only stable when that area has not changed for a while.
-/

namespace LibSimple.Teacher

open CLang EventRuns Debounce

namespace Tracker

variable {policy : TracePolicy} {start t : Tracker}
  {events : List Notice} {e : Notice}

/-- A call of `step`. -/
theorem step_cases {i : Input} {u : Tracker} {tasks : List Ptz.Task}
    (h : step policy t i = some (u, tasks)) :
    (∃ getValue data, i = .detected getValue data ∧ Outcome policy getValue t data u tasks) ∨
      ∃ state, i = .runningState state ∧ u = t.setRunningState state ∧ tasks = [] := by
  cases i with
  | detected getValue data => exact .inl ⟨getValue, data, rfl, setDetectedData_outcome h⟩
  | runningState state =>
      cases h
      exact .inr ⟨state, rfl, rfl, rfl⟩

/-- `set_running_state` only touches two members. -/
theorem setRunningState_spec (t : Tracker) (state : ℤ) :
    (t.setRunningState state).areas = t.areas ∧
      (t.setRunningState state).timeoutChker = t.timeoutChker ∧
      (t.setRunningState state).ptz = t.ptz ∧ (t.setRunningState state).ptzV = t.ptzV ∧
      (t.setRunningState state).ptzZ = t.ptzZ ∧ (t.setRunningState state).stable = t.stable ∧
      (t.setRunningState state).reseted = (if state ≠ 0 then false else t.reseted) := by
  rw [setRunningState]
  dsimp only
  split_ifs <;> simp

/-! ## Sending the camera back -/

/-- The camera is sent back. -/
def Resets (e : Notice) : Prop :=
  e.before.reseted = false ∧ e.after.reseted = true

/-- The teacher counts as detected behind the event, or somebody else takes the camera
over. -/
def Rearms (e : Notice) : Prop :=
  e.after.timeoutChker.isValid = true ∨ ∃ state, e.input = .runningState state ∧ state ≠ 0

/-- The camera is sent back in a frame, in `running_state_` 0, behind a loss that is
reported as long enough. -/
theorem Resets.spec (h : Resets e)
    (hstep : step policy e.before e.input = some (e.after, e.outputs)) :
    ∃ getValue data, e.input = .detected getValue data ∧
      e.outputs = resetPtz getValue e.before.ptz ∧ e.before.runningState = 0 ∧
      e.after.timeoutChker.isValid = false ∧
      policy.timeToResetPtz < e.after.timeoutChker.invalidDuration := by
  obtain ⟨before, input, after, outputs⟩ := e
  obtain ⟨hbefore, hafter⟩ := h
  dsimp only at hstep hbefore hafter ⊢
  rcases step_cases hstep with ⟨getValue, data, rfl, houtcome⟩ | ⟨state, rfl, rfl, rfl⟩
  · cases houtcome with
    | found hvalid hisValid hareas htasks => cases hafter
    | missing hvalid hisValid => cases hafter
    | lost hisValid hstable hreset => exact absurd (hbefore.symm.trans hafter) Bool.false_ne_true
    | reset hisValid hlong hrunning hreseted =>
        exact ⟨getValue, data, rfl, rfl, hrunning, hisValid, hlong⟩
  · rw [(setRunningState_spec before state).2.2.2.2.2.2] at hafter
    split_ifs at hafter
    exact absurd (hbefore.symm.trans hafter) Bool.false_ne_true

/-- What lets the camera be sent back again. -/
theorem rearms_of_lost (hstep : step policy e.before e.input = some (e.after, e.outputs))
    (hbefore : e.before.reseted = true) (hafter : ¬ e.after.reseted = true) : Rearms e := by
  obtain ⟨before, input, after, outputs⟩ := e
  dsimp only at hstep hbefore hafter
  rcases step_cases hstep with ⟨getValue, data, rfl, houtcome⟩ | ⟨state, rfl, rfl, rfl⟩
  · cases houtcome with
    | found hvalid hisValid hareas htasks =>
        exact .inl ((AreaDuration.setArea_spec _ _).2.1.trans hisValid)
    | missing hvalid hisValid => exact .inl hisValid
    | lost hisValid hstable hreset => exact absurd hbefore hafter
    | reset hisValid hlong hrunning hreseted => exact absurd rfl hafter
  · refine .inr ⟨state, rfl, fun hzero => hafter ?_⟩
    rw [(setRunningState_spec before state).2.2.2.2.2.2, if_neg (not_not.mpr hzero)]
    exact hbefore

/-- The camera is sent back only in `running_state_` 0 and behind a loss that is reported
as longer than `time_to_reset_ptz`; and between two such frames the teacher has counted as
detected again, or another running state has been set. -/
structure ResetsOnce (policy : TracePolicy) (events : List Notice) : Prop where
  spec : ∀ e ∈ events, Resets e →
    ∃ getValue data, e.input = .detected getValue data ∧
      e.outputs = resetPtz getValue e.before.ptz ∧ e.before.runningState = 0 ∧
      e.after.timeoutChker.isValid = false ∧
      policy.timeToResetPtz < e.after.timeoutChker.invalidDuration
  between : ∀ later e₂ mid e₁ earlier, events = later ++ e₂ :: (mid ++ e₁ :: earlier) →
    Resets e₁ → Resets e₂ → ∃ e ∈ mid, Rearms e

/-- The settings that are used when the configuration has none. -/
def usual : TracePolicy := ⟨3 / 2, 1, 5⟩

/-- A camera with three areas, 100 wide each. -/
def threeAreas : Tracker where
  ptz := true
  areas := .ofEdges 3 (0, 300) id
  ptzLeft := -400
  ptzRight := 400
  ptzV := 0
  ptzZ := 5000
  timeoutChker := .create
  reseted := false
  stable := false
  runningState := 0

/-- A frame in which the teacher is seen around this place, or in which nobody is. -/
def seen (stamp : ℚ) (place : Option ℤ) : Input :=
  .detected (fun _ => none)
    ⟨place.isSome, stamp, place.toList.map fun x => ⟨x - 10, x + 10⟩⟩

/-- The teacher is lost, comes back and is lost again. -/
def lostTwice : List Input :=
  [seen 1 none, seen 7 none, seen 8 (some 50), seen 9 (some 50), seen 10 none, seen 11 none,
    seen 17 none]

theorem isSome_lostTwice : (play (step usual) [] threeAreas lostTwice).isSome = true := by
  decide +kernel

/-- The run of these frames. -/
def lostTwiceRun : List Notice :=
  ((play (step usual) [] threeAreas lostTwice).get isSome_lostTwice).1

/-- The sample of a call, if it is a frame. -/
def Input.sample? : Input → Option Sample
  | .detected _ data => some (sample data)
  | .runningState _ => none

/-- The samples of a run, newest first. -/
def samples (events : List Notice) : List Sample := events.filterMap fun e => e.input.sample?

/-- A sample as a call of `AreaDuration`. -/
theorem exists_call (d : AreaDuration) (x : Sample) :
    ∃ c : AreaDuration.Call, d.call c = d.stamped x ∧ c.sample? = some x := by
  obtain ⟨valid, stamp⟩ := x
  cases valid with
  | true => exact ⟨.setValidStamp stamp, rfl, rfl⟩
  | false => exact ⟨.setInvalidStamp stamp, rfl, rfl⟩

/-- `timeout_chker_` has seen the samples of the run. -/
theorem timeoutChker_eq_after (hstart : start.timeoutChker = .create)
    (hrun : Run (step policy) start events t) :
    ∃ calls, t.timeoutChker = .after calls ∧ AreaDuration.samples calls = samples events := by
  refine hrun.induct (P := fun events t => ∃ calls, t.timeoutChker = .after calls ∧
    AreaDuration.samples calls = samples events) ⟨[], hstart, rfl⟩ ?_
  rintro events t i u tasks - ⟨calls, hafter, hsamples⟩ hstep
  rcases step_cases hstep with ⟨getValue, data, rfl, houtcome⟩ | ⟨state, rfl, rfl, rfl⟩
  · obtain ⟨c, hcall, hsample⟩ := exists_call t.timeoutChker (sample data)
    have hcons : AreaDuration.after (c :: calls) = t.timeoutChker.stamped (sample data) := by
      rw [AreaDuration.after, ← hafter, hcall]
    have hsamples' : AreaDuration.samples (c :: calls) = sample data :: samples events := by
      rw [AreaDuration.samples, List.filterMap_cons_some hsample, ← hsamples]
      rfl
    cases houtcome with
    | @found areas changed tasks hvalid hisValid hareas htasks =>
        refine ⟨.setArea areas.lastAreaIndex :: c :: calls, ?_, hsamples'⟩
        rw [AreaDuration.after, hcons]
        rfl
    | missing hvalid hisValid => exact ⟨c :: calls, hcons.symm, hsamples'⟩
    | lost hisValid hstable hreset => exact ⟨c :: calls, hcons.symm, hsamples'⟩
    | reset hisValid hlong hrunning hreseted => exact ⟨c :: calls, hcons.symm, hsamples'⟩
  · exact ⟨calls, (setRunningState_spec t state).2.1.trans hafter, hsamples⟩

theorem tracks (hstart : start.timeoutChker = .create) (hrun : Run (step policy) start events t)
    (hordered : Ordered (samples events)) : t.timeoutChker.Tracks (samples events) := by
  obtain ⟨calls, hafter, hsamples⟩ := timeoutChker_eq_after hstart hrun
  rw [← hsamples] at hordered
  rw [hafter, ← hsamples]
  exact AreaDuration.tracks_after hordered

/-! ## How long the teacher has been lost -/

/-- Since when the state that is shown has been so: since its last change, or since the
first sample. -/
def shownSince (samples : List Sample) : Option ℚ :=
  (changeStamp samples).or (samples.getLast?.map Sample.stamp)

/-- The time from the first sample to the newest one. -/
def elapsed : List Sample → ℚ
  | [] => 0
  | x :: older => sinceLast x older + elapsed older

theorem elapsed_cons (x : Sample) (older : List Sample) :
    ∀ y ∈ (x :: older).getLast?, elapsed (x :: older) = x.stamp - y.stamp := by
  induction older generalizing x with
  | nil =>
      intro y hy
      obtain rfl : x = y := by simpa using hy
      rw [elapsed, sinceLast, elapsed, sub_self, add_zero]
  | cons z older ih =>
      intro y hy
      rw [List.getLast?_cons_cons] at hy
      rw [elapsed, sinceLast, ih z y hy]
      linarith

theorem elapsed_nonneg {samples : List Sample} (hordered : Ordered samples) :
    0 ≤ elapsed samples := by
  induction samples with
  | nil => exact le_refl 0
  | cons x older ih => exact add_nonneg hordered.sinceLast_nonneg (ih hordered.tail)

/-- No duration is longer than the time since the first sample. -/
theorem duration_le_elapsed {calls : List AreaDuration.Call}
    (hordered : Ordered (AreaDuration.samples calls)) (kind : Bool) :
    (AreaDuration.after calls).duration kind ≤ elapsed (AreaDuration.samples calls) := by
  induction calls with
  | nil => cases kind <;> exact le_refl 0
  | cons c earlier ih =>
      rcases AreaDuration.after_cons_cases c earlier with
        ⟨x, hsamples, hafter⟩ | ⟨hsamples, id, hafter⟩
      · rw [hsamples] at hordered ⊢
        rw [hafter, elapsed]
        have htracks := AreaDuration.tracks_after hordered.tail
        have hspec := AreaDuration.stamped_spec (AreaDuration.after earlier) x
        have hsince := hordered.sinceLast_nonneg
        have hold := ih hordered.tail
        by_cases hkind : kind = x.valid
        · have hown := hspec.own
          rw [htracks.gap_eq hordered] at hown
          rw [hkind] at hold ⊢
          linarith
        · obtain rfl : kind = !x.valid := Bool.eq_not_of_ne hkind
          have helapsed := elapsed_nonneg hordered.tail
          rw [hspec.other]
          split_ifs
          · linarith
          · linarith
      · rw [hsamples] at hordered ⊢
        rw [hafter, (AreaDuration.setArea_spec _ id).2.2.2.1]
        exact ih hordered

/-- Without stray samples the reported duration goes back to the last change at most, or
to the first sample. -/
theorem duration_shown_le (hstart : start.timeoutChker = .create)
    (hrun : Run (step policy) start events t) (hordered : Ordered (samples events))
    (hstray : NoStray (samples events)) :
    ∀ x ∈ (samples events).head?, ∀ b ∈ shownSince (samples events),
      t.timeoutChker.duration (shown (samples events)) ≤ x.stamp - b := by
  obtain ⟨calls, hafter, hsamples⟩ := timeoutChker_eq_after hstart hrun
  rw [← hsamples] at hordered hstray ⊢
  rw [hafter]
  intro x hx b hb
  rw [shownSince] at hb
  cases hchange : changeStamp (AreaDuration.samples calls) with
  | some b' =>
      rw [hchange] at hb
      obtain rfl := Option.some.inj hb
      exact AreaDuration.bounded_after hordered hstray x hx b' hchange
  | none =>
      rw [hchange, Option.none_or] at hb
      obtain ⟨y, hy, rfl⟩ := Option.map_eq_some_iff.mp hb
      have hle := duration_le_elapsed hordered (shown (AreaDuration.samples calls))
      cases hcalls : AreaDuration.samples calls with
      | nil => rw [hcalls] at hx; cases hx
      | cons x' older =>
          rw [hcalls] at hx hy hle
          obtain rfl := Option.some.inj hx
          rwa [elapsed_cons _ _ y hy] at hle

/-- Whenever the camera is sent back, and no stray samples have come before a change, the
teacher does not count as detected and has not done so for longer than
`time_to_reset_ptz`. -/
def ResetsAfterLoss (policy : TracePolicy) (events : List Notice) : Prop :=
  ∀ later e earlier, events = later ++ e :: earlier → Resets e →
    NoStray (samples (e :: earlier)) →
      shown (samples (e :: earlier)) = false ∧
        ∀ x ∈ (samples (e :: earlier)).head?, ∀ b ∈ shownSince (samples (e :: earlier)),
          policy.timeToResetPtz < x.stamp - b

/-- The samples of an earlier part of a run. -/
theorem ordered_earlier {later earlier : List Notice}
    (h : Ordered (samples (later ++ earlier))) : Ordered (samples earlier) := by
  rw [samples, List.filterMap_append] at h
  exact ⟨fun x hx => h.positive x (List.mem_append_right _ hx),
    (List.pairwise_append.mp h.sorted).2.1⟩

/-- The last event of a run ends in its last state. -/
theorem after_eq {earlier : List Notice} (hrun : Run (step policy) start (e :: earlier) t) :
    e.after = t := by
  cases hrun with
  | cons hrest hstep => rfl

theorem ordered_lostTwice : Ordered (samples lostTwiceRun) :=
  ⟨by decide +kernel, by decide +kernel⟩

/-- In the event the teacher is found in area `index`, at this stamp. -/
def FindsIn (e : Notice) (index : ℤ) (stamp : ℚ) : Prop :=
  ∃ getValue data, e.input = .detected getValue data ∧ data.valid = true ∧
    e.after.timeoutChker.isValid = true ∧ index = e.after.areas.lastAreaIndex ∧
    stamp = data.stamp

/-- The time that is counted for the area goes back at most to the last frame in which the
teacher was found in another one. -/
def AreaSince (events : List Notice) (d : AreaDuration) : Prop :=
  ∀ e ∈ events, ∀ i s, FindsIn e i s → i ≠ d.area → d.durationValidArea ≤ d.last - s

theorem mem_samples {i : ℤ} {s : ℚ} (he : e ∈ events) (hfinds : FindsIn e i s) :
    ∃ x ∈ samples events, x.stamp = s := by
  obtain ⟨getValue, data, hinput, -, -, -, rfl⟩ := hfinds
  exact ⟨sample data, List.mem_filterMap.mpr ⟨e, he, by rw [hinput]; rfl⟩, rfl⟩

/-- One more sample. -/
theorem AreaSince.stamped {d : AreaDuration} {x : Sample} (h : AreaSince events d)
    (htracks : d.Tracks (samples events)) (hordered : Ordered (x :: samples events)) :
    AreaSince events (d.stamped x) := by
  intro e he i s hfinds hne
  have hspec := AreaDuration.stamped_spec d x
  obtain ⟨y, hy, rfl⟩ := mem_samples he hfinds
  have hle : y.stamp ≤ x.stamp := List.rel_of_pairwise_cons hordered.sorted hy
  have hgap := htracks.gap_eq hordered
  have hsince := hordered.sinceLast_nonneg
  rw [hspec.area] at hne
  have hold := h e he i y.stamp hfinds hne
  have hlast : sinceLast x (samples events) = x.stamp - d.last := by
    rw [htracks.last]
    cases hsamples : samples events with
    | nil =>
        rw [hsamples] at hy
        cases hy
    | cons z older => rfl
  rw [hspec.validArea, hspec.last, hgap, hlast]
  rw [hlast] at hsince
  split_ifs
  · linarith
  · linarith
  · linarith

/-- The area that the teacher is found in. -/
theorem AreaSince.setArea {d : AreaDuration} (h : AreaSince events d)
    (hlast : ∀ x ∈ samples events, x.stamp ≤ d.last) {i : ℤ} {s : ℚ} (hfinds : FindsIn e i s) :
    AreaSince (e :: events) (d.setArea i) := by
  have harea : (d.setArea i).area = i := by
    rw [AreaDuration.setArea]
    dsimp only
    split_ifs <;> rfl
  intro e' he' j s' hfinds' hne
  rw [harea] at hne
  rcases List.mem_cons.mp he' with rfl | he'
  · obtain ⟨-, -, -, -, -, rfl, -⟩ := hfinds
    obtain ⟨-, -, -, -, -, rfl, -⟩ := hfinds'
    exact absurd rfl hne
  · obtain ⟨y, hy, rfl⟩ := mem_samples he' hfinds'
    have hle := hlast y hy
    rw [AreaDuration.setArea]
    dsimp only
    split_ifs with hchanged
    · show (0 : ℚ) ≤ d.last - y.stamp
      linarith
    · exact h e' he' j y.stamp hfinds' (by rwa [not_not.mp hchanged])

/-- An event in which the teacher is not found. -/
theorem AreaSince.cons {d : AreaDuration} (h : AreaSince events d)
    (hnot : ∀ i s, ¬ FindsIn e i s) : AreaSince (e :: events) d := by
  intro e' he' i s hfinds
  rcases List.mem_cons.mp he' with rfl | he'
  · exact absurd hfinds (hnot i s)
  · exact h e' he' i s hfinds

theorem areaSince_run (hstart : start.timeoutChker = .create)
    (hrun : Run (step policy) start events t) (hordered : Ordered (samples events)) :
    AreaSince events t.timeoutChker := by
  revert hordered
  refine hrun.induct
    (P := fun events t => Ordered (samples events) → AreaSince events t.timeoutChker)
    (fun _ e he => by cases he) ?_
  intro events t i u tasks hrun ih hstep hordered
  rcases step_cases hstep with ⟨getValue, data, rfl, houtcome⟩ | ⟨state, rfl, rfl, rfl⟩
  · have hsamples : Ordered (sample data :: samples events) := hordered
    have htracks := tracks hstart hrun hsamples.tail
    have hstamped := (ih hsamples.tail).stamped htracks hsamples
    have hlast := (AreaDuration.stamped_spec t.timeoutChker (sample data)).last
    cases houtcome with
    | @found areas changed tasks hvalid hisValid hareas htasks =>
        refine hstamped.setArea (fun x hx => ?_) (s := data.stamp) ⟨getValue, data, rfl, hvalid,
          (AreaDuration.setArea_spec _ _).2.1.trans hisValid, rfl, rfl⟩
        rw [hlast]
        exact List.rel_of_pairwise_cons hsamples.sorted hx
    | missing hvalid hisValid =>
        refine hstamped.cons ?_
        rintro i s ⟨_, _, heq, hvalid', -⟩
        cases heq
        exact Bool.false_ne_true (hvalid.symm.trans hvalid')
    | lost hisValid hstable hreset =>
        refine hstamped.cons ?_
        rintro i s ⟨_, _, heq, -, hisValid', -⟩
        exact Bool.false_ne_true (hisValid.symm.trans hisValid')
    | reset hisValid hlong hrunning hreseted =>
        refine hstamped.cons ?_
        rintro i s ⟨_, _, heq, -, hisValid', -⟩
        exact Bool.false_ne_true (hisValid.symm.trans hisValid')
  · rw [(setRunningState_spec t state).2.1]
    refine (ih hordered).cons ?_
    rintro i s ⟨_, _, heq, -⟩
    cases heq

/-- Only a frame in which the teacher is found makes the picture stable. -/
theorem exists_findsIn_of_stable
    (hstep : step policy e.before e.input = some (e.after, e.outputs))
    (hbefore : e.before.stable = false) (hafter : e.after.stable = true) :
    ∃ i s, FindsIn e i s := by
  obtain ⟨before, input, after, outputs⟩ := e
  dsimp only at hstep hbefore hafter
  rcases step_cases hstep with ⟨getValue, data, rfl, houtcome⟩ | ⟨state, rfl, rfl, rfl⟩
  · cases houtcome with
    | found hvalid hisValid hareas htasks =>
        exact ⟨_, _, getValue, data, rfl, hvalid,
          (AreaDuration.setArea_spec _ _).2.1.trans hisValid, rfl, rfl⟩
    | missing hvalid hisValid => exact absurd (hbefore.symm.trans hafter) Bool.false_ne_true
    | lost hisValid hstable hreset =>
        exact absurd (hbefore.symm.trans (hstable hafter).1) Bool.false_ne_true
    | reset hisValid hlong hrunning hreseted => cases hafter
  · rw [(setRunningState_spec before state).2.2.2.2.2.1] at hafter
    exact absurd (hbefore.symm.trans hafter) Bool.false_ne_true

/-- In a frame that finds the teacher the picture is stable if the time for the area is
long enough. -/
theorem stable_of_findsIn {i : ℤ} {s : ℚ}
    (hstep : step policy e.before e.input = some (e.after, e.outputs)) (hfinds : FindsIn e i s) :
    (e.after.stable = true ↔ policy.timeToCloseview < e.after.timeoutChker.durationValidArea) ∧
      e.after.timeoutChker.area = i ∧ e.after.timeoutChker.last = s := by
  obtain ⟨before, input, after, outputs⟩ := e
  obtain ⟨getValue, data, hinput, hvalid, hisValid, rfl, rfl⟩ := hfinds
  dsimp only at hstep hinput hisValid ⊢
  subst hinput
  cases setDetectedData_outcome hstep with
  | @found areas changed tasks hvalid' hisValid' hareas htasks =>
      have hlast := (AreaDuration.setArea_spec
        (before.timeoutChker.stamped (sample data)) areas.lastAreaIndex).1
      have hvalidArea : (((before.timeoutChker.stamped (sample data)).setArea
          areas.lastAreaIndex).validDurationArea) = ((before.timeoutChker.stamped
            (sample data)).setArea areas.lastAreaIndex).durationValidArea := by
        rw [AreaDuration.validDurationArea, (AreaDuration.setArea_spec _ _).2.1, hisValid',
          if_pos rfl]
      refine ⟨?_, ?_, hlast.trans (AreaDuration.stamped_spec _ _).last⟩
      · show decide (_ > policy.timeToCloseview) = true ↔ policy.timeToCloseview < _
        rw [hvalidArea]
        exact decide_eq_true_iff
      · show (AreaDuration.setArea _ _).area = _
        rw [AreaDuration.setArea]
        dsimp only
        split_ifs <;> rfl
  | missing hvalid' hisValid' => exact absurd (hvalid'.symm.trans hvalid) Bool.false_ne_true
  | lost hisValid' hstable hreset => exact absurd (hisValid'.symm.trans hisValid) Bool.false_ne_true
  | reset hisValid' hlong hrunning hreseted =>
      exact absurd (hisValid'.symm.trans hisValid) Bool.false_ne_true

/-- The picture becomes stable only in a frame in which the teacher is found, and when it is
stable in such a frame, the teacher has been found in no other area for
`time_to_closeview`. -/
structure StableArea (policy : TracePolicy) (events : List Notice) : Prop where
  findsIn : ∀ e ∈ events, e.before.stable = false → e.after.stable = true →
    ∃ i s, FindsIn e i s
  same : ∀ later e earlier, events = later ++ e :: earlier → ∀ i s, FindsIn e i s →
    e.after.stable = true →
      ∀ e' ∈ earlier, ∀ j s', FindsIn e' j s' → s - s' ≤ policy.timeToCloseview → j = i

/-- A frame that finds the teacher while the picture is stable finds him where every other
recent frame has. -/
theorem same_area {later earlier : List Notice} {i j : ℤ} {s s' : ℚ} {e' : Notice}
    (hstart : start.timeoutChker = .create)
    (hrun : Run (step policy) start (later ++ e :: earlier) t)
    (hordered : Ordered (samples (later ++ e :: earlier))) (hfinds : FindsIn e i s)
    (hstable : e.after.stable = true) (he' : e' ∈ earlier) (hfinds' : FindsIn e' j s')
    (hclose : s - s' ≤ policy.timeToCloseview) : j = i := by
  obtain ⟨u, hu, -⟩ := hrun.split
  obtain ⟨-, -, -, -, hstep⟩ := hu.of_mem List.mem_cons_self
  obtain ⟨hiff, harea, hstamp⟩ := stable_of_findsIn hstep hfinds
  by_contra hne
  have hle := areaSince_run hstart hu (ordered_earlier hordered) e' (List.mem_cons_of_mem e he')
    j s' hfinds' (by rw [← after_eq hu, harea]; exact hne)
  rw [← after_eq hu, hstamp] at hle
  have hlt := hiff.mp hstable
  linarith

/-- In every run with ordered stamps. -/
theorem stable_area (hstart : start.timeoutChker = .create)
    (hrun : Run (step policy) start events t) (hordered : Ordered (samples events)) :
    StableArea policy events := by
  constructor
  · intro e he
    obtain ⟨-, -, -, -, hstep⟩ := hrun.of_mem he
    exact exists_findsIn_of_stable hstep
  · rintro later e earlier rfl i s hfinds hstable e' he' j s' hfinds' hclose
    exact same_area hstart hrun hordered hfinds hstable he' hfinds' hclose

/-- The teacher walks from the first area to the second and stays there. -/
def walk : List Input :=
  [seen 1 (some 50), seen 2 (some 50), seen 3 (some 150), seen 4 (some 150), seen 5 (some 150)]

theorem isSome_walk : (play (step usual) [] threeAreas walk).isSome = true := by
  decide +kernel

/-- The run of these frames. -/
def walkRun : List Notice := ((play (step usual) [] threeAreas walk).get isSome_walk).1

theorem stable_area_walk :
    (walkRun.map fun e => e.after.stable) = [true, false, false, false, false] ∧
      StableArea usual walkRun :=
  ⟨by decide +kernel,
    stable_area rfl (run_of_isSome isSome_walk) ⟨by decide +kernel, by decide +kernel⟩⟩

end Tracker

end LibSimple.Teacher
