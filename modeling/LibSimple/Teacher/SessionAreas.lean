import LibSimple.Teacher.Sessions

/-!
# The areas of a session

ENTER with fewer than four points is meant to remove the area that is being calibrated, but
empties the first key, whichever area it is.  So the areas of the other two keys stay.
-/

namespace LibSimple.Teacher

open CLang EventRuns

namespace Session

variable {Config : Type} {kv : KVConfig Config} {policy : TracePolicy}
  {s t : Session Config} {i : Input} {effects : List Effect}

/-- What is read under a key of an area. -/
theorem maskPoints_congr {cfg cfg' : Config} {key : CStr}
    (h : kv.getValue cfg' key = kv.getValue cfg key) :
    maskPoints kv cfg' key = maskPoints kv cfg key := by
  rw [maskPoints, maskPoints, h]

/-- ENTER writes under another key than the first one only what has been clicked for it. -/
theorem maskPoints_of_save {r r' : TeacherRunning Config} {key : CStr}
    (hr : r.state.Calibrating) (h : keyCalibratingHandle kv r 13 = some r')
    (hkey : key ≠ calibrationData) :
    kv.getValue r'.cfg key = kv.getValue r.cfg key ∨
      r.state.key = key ∧ 4 ≤ r.calibrations.length ∧
        maskPoints kv r'.cfg key = r.calibrations := by
  rw [keyCalibratingHandle_enter, Option.map_eq_some_iff] at h
  obtain ⟨cfg, hsave, rfl⟩ := h
  rw [saveCalibration_cases kv hr] at hsave
  dsimp only
  by_cases hfew : r.calibrations.length < 4
  · rw [if_pos hfew] at hsave
    cases hsave
    rw [kv.getValue_saveAs, kv.getValue_setValue_ne _ _ hkey]
    exact .inl rfl
  · rw [if_neg hfew] at hsave
    split_ifs at hsave
    cases hsave
    by_cases hown : key = r.state.key
    · subst hown
      rw [maskPoints, kv.getValue_saveAs, kv.getValue_setValue, scanPoints_pointsText]
      exact .inr ⟨rfl, not_lt.mp hfew, rfl⟩
    · rw [kv.getValue_saveAs, kv.getValue_setValue_ne _ _ hown]
      exact .inl rfl

/-- ENTER has been pressed with these points clicked for the key. -/
def Confirms (key : CStr) (points : List CvPoint) (e : Moment Config) : Prop :=
  e.before.running.state.Calibrating ∧ e.before.running.state.key = key ∧
    e.before.running.calibrations = points ∧ ∃ shift pos, e.input = .key 13 shift pos

theorem Happens.area (h : Happens kv policy s i t effects) {key : CStr} (hkey : key ∈ areaKeys)
    (hne : key ≠ calibrationData) :
    kv.getValue t.running.cfg key = kv.getValue s.running.cfg key ∨
      4 ≤ (maskPoints kv t.running.cfg key).length ∧
        Confirms key (maskPoints kv t.running.cfg key) ⟨s, i, t, effects⟩ := by
  cases h with
  | saves hs hr =>
      rcases maskPoints_of_save hs hr hne with hsame | ⟨hown, hfour, hpoints⟩
      · exact .inl hsame
      · dsimp only
        rw [hpoints]
        exact .inr ⟨hfour, hs, hown, rfl, _, _, rfl⟩
  | returns hadj hcfg => exact .inl (hcfg key hkey)
  | begins hkey hrunning => exact .inl rfl
  | clicks hcal => exact .inl rfl
  | escapes hcal => exact .inl rfl
  | takes hrunning hadj heffects => exact .inl rfl
  | adjusts hframe hadj heffects => exact .inl rfl
  | frames hptz => exact .inl rfl
  | nothing hframe hnot => exact .inl rfl

/-- The area is there from one call to the next. -/
theorem area_run {events : List (Moment Config)} {key : CStr}
    (hrun : Run (step kv policy) s events t) (hkey : key ∈ areaKeys) (hne : key ≠ calibrationData)
    (harea : 3 < (maskPoints kv s.running.cfg key).length) :
    3 < (maskPoints kv t.running.cfg key).length ∧
      (maskPoints kv t.running.cfg key = maskPoints kv s.running.cfg key ∨
        ∃ e ∈ events, Confirms key (maskPoints kv t.running.cfg key) e) := by
  refine hrun.induct
    (P := fun events t => 3 < (maskPoints kv t.running.cfg key).length ∧
      (maskPoints kv t.running.cfg key = maskPoints kv s.running.cfg key ∨
        ∃ e ∈ events, Confirms key (maskPoints kv t.running.cfg key) e)) ⟨harea, .inl rfl⟩ ?_
  rintro events t i u effects - ⟨hthree, hfrom⟩ hstep
  rcases (step_happens hstep).area hkey hne with hsame | ⟨hfour, hconfirms⟩
  · rw [maskPoints_congr hsame]
    refine ⟨hthree, hfrom.imp_right ?_⟩
    rintro ⟨e, he, hconfirms⟩
    exact ⟨e, List.mem_cons_of_mem _ he, hconfirms⟩
  · exact ⟨hfour, .inr ⟨_, List.mem_cons_self, hconfirms⟩⟩

/-- ENTER in one of the last two states fills the areas of both keys. -/
theorem polygons_of_enter {shift : Bool} {pos : Position}
    (hs : s.running.state = .calibrating2 ∨ s.running.state = .calibrating3)
    (h : step kv policy s (.key 13 shift pos) = some (t, effects)) :
    t.running.imgMask.polygons = areas kv t.running.cfg [calibrationData2, calibrationData3] := by
  have hne : s.running.state ≠ .calibrating := by
    rcases hs with hs | hs
    · rw [hs]
      exact State.noConfusion
    · rw [hs]
      exact State.noConfusion
  rw [step, keyHandle_calibrating (.inr hs), keyCalibratingHandle_enter] at h
  obtain ⟨r, hr, heq⟩ := Option.map_eq_some_iff.mp h
  obtain ⟨cfg, -, rfl⟩ := Option.map_eq_some_iff.mp hr
  cases heq
  dsimp only
  rw [buildMask_eq, maskKeys, if_neg hne, maskOf]

/-- Once there is an area under one of the last two keys, no session takes it away: what
stands there is that area or another one that has been clicked for the key and confirmed,
and every mask that ENTER makes from the two keys has what stands there filled. -/
theorem area_stays {events : List (Moment Config)} {key : CStr}
    (hrun : Run (step kv policy) s events t)
    (hkey : key = calibrationData2 ∨ key = calibrationData3)
    (harea : 3 < (maskPoints kv s.running.cfg key).length) :
    3 < (maskPoints kv t.running.cfg key).length ∧
      (maskPoints kv t.running.cfg key = maskPoints kv s.running.cfg key ∨
        ∃ e ∈ events, Confirms key (maskPoints kv t.running.cfg key) e) ∧
      ∀ e ∈ events, ∀ shift pos, e.input = .key 13 shift pos →
        e.before.running.state = .calibrating2 ∨ e.before.running.state = .calibrating3 →
          maskPoints kv e.after.running.cfg key ∈ e.after.running.imgMask.polygons := by
  have hmem : key ∈ areaKeys ∧ key ≠ calibrationData ∧
      key ∈ [calibrationData2, calibrationData3] := by
    rcases hkey with rfl | rfl
    · decide
    · decide
  obtain ⟨hareaKey, hne, hmask⟩ := hmem
  obtain ⟨hthree, hfrom⟩ := area_run hrun hareaKey hne harea
  refine ⟨hthree, hfrom, fun e he shift pos hinput hstate => ?_⟩
  obtain ⟨later, earlier, -, hbefore, hstep⟩ := hrun.of_mem he
  have hafter := (area_run (hbefore.cons hstep) hareaKey hne harea).1
  rw [hinput] at hstep
  rw [polygons_of_enter hstate hstep, areas, List.mem_filter]
  exact ⟨List.mem_map_of_mem hmask, decide_eq_true hafter⟩

/-- Two points are clicked for the area of the second key, which does not remove it. -/
def takingAway : List Input :=
  pressed 'b'.toNat :: ((corner.take 2).map (.mouseDetected lbuttonup) ++ [pressed 13])

theorem isSome_takingAway :
    (play (step plainConfig Tracker.usual) [] fresh takingAway).isSome = true := by
  decide +kernel

theorem area_stays_takingAway :
    3 < (maskPoints plainConfig ((play (step plainConfig Tracker.usual) [] fresh
      takingAway).get isSome_takingAway).2.running.cfg calibrationData2).length :=
  (area_stays (run_of_isSome isSome_takingAway) (.inl rfl) (by decide +kernel)).1

end Session

end LibSimple.Teacher
