import LibSimple.Teacher.Config
import LibSimple.Url.QueryPairs

/-!
# Calibrating with the mouse

The keys of `TeacherRunning` while points are being clicked: ENTER saves them in the
configuration and rebuilds the mask, ESC gives up.  What is saved is text, and the
functions that read it scan it again.
-/

namespace LibSimple.Teacher

open CLang Url Words

/-! ## The mask -/

/-- A mask: what it starts from, and the polygons that are filled in it. -/
structure Mask where
  white : Bool
  polygons : List (List CvPoint)

/-- `cvZero` -/
def cvZero : Mask := ⟨false, []⟩

/-- `cvSet` to white -/
def cvSet : Mask := ⟨true, []⟩

/-- `cvFillPoly` -/
def cvFillPoly (img : Mask) (points : List CvPoint) : Mask :=
  { img with polygons := img.polygons ++ [points] }

/-! ## The class -/

/-- `State` of `TeacherRunning` -/
inductive State
  | running
  | calibrating
  | ptziniting
  | calibrating2
  | calibrating3
  | ptzinitLeft
  | ptzinitRight
  deriving DecidableEq

/-- The fields of `TeacherRunning` and `Running` for the calibration. -/
structure TeacherRunning (Config : Type) where
  cfg : Config
  state : State
  calibrations : List CvPoint
  enableMask : Bool
  imgMask : Mask
  masked : Bool

section

variable {Config : Type} (kv : KVConfig Config)

/-- The loop of `load_roi` over one of the two keys. -/
def loadRoiPoints (cfg : Config) (key : CStr) : List CvPoint := scanPoints (kv.getValue cfg key)

/-- `load_roi` -/
def loadRoi (cfg : Config) : List CvPoint :=
  loadRoiPoints kv cfg calibrationData2 ++ loadRoiPoints kv cfg calibrationData3

/-- The loop of `build_mask_internal`. -/
def maskPoints (cfg : Config) (key : CStr) : List CvPoint := scanPoints (kv.getValue cfg key)

/-- `build_mask_internal`: whether there is an area, and the mask with it. -/
def buildMaskInternal (cfg : Config) (masked : Bool) (key : CStr) (img : Mask) : Bool × Mask :=
  let points := maskPoints kv cfg key
  if 3 < points.length then
    let img := if masked then img else cvZero
    (true, cvFillPoly img points)
  else (false, img)

/-- `build_mask`: `masked_` afterwards, and the mask. -/
def buildMask (cfg : Config) (masked : Bool) (key : CStr) (key2 : Option CStr) : Bool × Mask :=
  let img := if masked then cvZero else cvSet
  let (masked, img) := buildMaskInternal kv cfg masked key img
  match key2 with
  | none => (masked, img)
  | some key2 => (masked, (buildMaskInternal kv cfg masked key2 img).2)

/-- What `sprintf` prints for a point. -/
def pointText (pt : CvPoint) : List UInt8 :=
  intText pt.x.val ++ charByte ',' :: (intText pt.y.val ++ [charByte ';'])

/-- The text of the points. -/
def pointsText (points : List CvPoint) : List UInt8 := points.flatMap pointText

/-- ENTER with the points clicked so far, up to the mask; `none` when the text and its NUL
leave the buffer of 4096 bytes. -/
def saveCalibration (r : TeacherRunning Config) : Option Config :=
  if r.calibrations.length < 4 then
    some (kv.saveAs (kv.setValue r.cfg calibrationData (.ofString "")))
  else if (pointsText r.calibrations).length + 1 ≤ 4096 then
    let pts := CStr.ofBuffer (pointsText r.calibrations)
    let cfg :=
      if r.state = .calibrating then kv.setValue r.cfg calibrationData pts
      else if r.state = .calibrating2 then kv.setValue r.cfg calibrationData2 pts
      else if r.state = .calibrating3 then kv.setValue r.cfg calibrationData3 pts
      else r.cfg
    some (kv.saveAs cfg)
  else none

/-- `key_calibrating_handle` -/
def keyCalibratingHandle (r : TeacherRunning Config) (key : ℤ) :
    Option (TeacherRunning Config) :=
  if key = 27 then some { r with state := .running, enableMask := true }
  else if key = 13 then do
    let cfg ← saveCalibration kv r
    let (masked, imgMask) :=
      if r.state = .calibrating then buildMask kv cfg r.masked calibrationData none
      else buildMask kv cfg r.masked calibrationData2 (some calibrationData3)
    some
      { r with
        cfg := cfg
        imgMask := imgMask
        masked := masked
        enableMask := true
        state := .running }
  else some r

end

/-! ## Reading back what was saved -/

/-- The bytes of a printed point, up to its separator, are neither NUL nor a separator. -/
theorem mem_pointBytes {pt : CvPoint} {c : UInt8}
    (h : c ∈ intText pt.x.val ++ charByte ',' :: intText pt.y.val) :
    c ≠ 0 ∧ c ≠ charByte ';' := by
  have hnumber : ∀ x : ℤ, c ∈ intText x → c ≠ 0 ∧ c ≠ charByte ';' := by
    intro x hx
    rcases mem_intText hx with rfl | hdigit
    · decide
    · refine ⟨(digit_ne hdigit).2.2.2, ?_⟩
      rintro rfl
      revert hdigit
      decide
  rw [List.mem_append, List.mem_cons] at h
  rcases h with h | rfl | h
  · exact hnumber _ h
  · decide
  · exact hnumber _ h

/-- The words of the text are the points. -/
theorem words_pointsText (points : List CvPoint) :
    words (· == charByte ';') (pointsText points) =
      points.map fun pt => intText pt.x.val ++ charByte ',' :: intText pt.y.val := by
  induction points with
  | nil => rfl
  | cons pt points ih =>
      have htext : pointsText (pt :: points) =
          (intText pt.x.val ++ charByte ',' :: intText pt.y.val) ++
            charByte ';' :: pointsText points := by
        simp [pointsText, pointText]
      have hword : ∀ c ∈ intText pt.x.val ++ charByte ',' :: intText pt.y.val,
          (c == charByte ';') = false := fun c hc => beq_eq_false_iff_ne.mpr (mem_pointBytes hc).2
      rw [htext, words_word_append (by simp) hword (by decide), ih, List.map_cons]

theorem zero_notMem_pointsText (points : List CvPoint) : (0 : UInt8) ∉ pointsText points := by
  rw [pointsText, List.mem_flatMap]
  rintro ⟨pt, -, hzero⟩
  rw [pointText, ← List.cons_append, ← List.append_assoc, List.mem_append] at hzero
  rcases hzero with hzero | hzero
  · exact (mem_pointBytes hzero).1 rfl
  · revert hzero
    decide

/-- The text of points is scanned as the points. -/
theorem scanPoints_pointsText (points : List CvPoint) :
    scanPoints (some (CStr.ofBuffer (pointsText points))) = points := by
  rw [scanPoints]
  dsimp only
  rw [strtok_eq_words, CStr.ofBuffer_val_of_notMem (zero_notMem_pointsText points),
    words_pointsText, List.map_map, List.filterMap_map]
  refine Eq.trans (List.filterMap_congr fun pt _ => ?_) List.filterMap_some
  have hval := CStr.ofBuffer_val_of_notMem fun hzero => (@mem_pointBytes pt _ hzero).1 rfl
  show (scanIntPair (CStr.ofBuffer
    (intText pt.x.val ++ charByte ',' :: intText pt.y.val))).map _ = _
  rw [scanIntPair_intText hval]
  rfl

/-! ## What ENTER saves -/

section

variable {Config : Type} {kv : KVConfig Config} {r : TeacherRunning Config}

/-- One of the three states in which points are clicked. -/
def State.Calibrating (s : State) : Prop :=
  s = .calibrating ∨ s = .calibrating2 ∨ s = .calibrating3

/-- The key that belongs to a state. -/
def State.key : State → CStr
  | .calibrating2 => calibrationData2
  | .calibrating3 => calibrationData3
  | _ => calibrationData

variable (kv) in
/-- What ENTER does to the configuration. -/
theorem saveCalibration_cases (hr : r.state.Calibrating) :
    saveCalibration kv r =
      if r.calibrations.length < 4 then
        some (kv.saveAs (kv.setValue r.cfg calibrationData (.ofString "")))
      else if (pointsText r.calibrations).length + 1 ≤ 4096 then
        some (kv.saveAs (kv.setValue r.cfg r.state.key (.ofBuffer (pointsText r.calibrations))))
      else none := by
  rw [saveCalibration]
  rcases hr with hstate | hstate | hstate
  · rw [hstate]
    rfl
  · rw [hstate]
    rfl
  · rw [hstate]
    rfl

/-- ENTER is pressed and everything is well defined. -/
theorem keyCalibratingHandle_enter :
    keyCalibratingHandle kv r 13 = (saveCalibration kv r).map fun cfg =>
      let mask :=
        if r.state = .calibrating then buildMask kv cfg r.masked calibrationData none
        else buildMask kv cfg r.masked calibrationData2 (some calibrationData3)
      { r with
        cfg := cfg
        imgMask := mask.2
        masked := mask.1
        enableMask := true
        state := .running } := by
  rw [keyCalibratingHandle, if_neg (by decide), if_pos rfl]
  cases saveCalibration kv r with
  | none => rfl
  | some cfg => rfl

/-- The points that ENTER has saved in one of the last two states are those that are read
again, in `load_roi` and for the mask. -/
theorem calibration_read_back (hr : r.state = .calibrating2 ∨ r.state = .calibrating3)
    (hfour : 4 ≤ r.calibrations.length) (hfits : (pointsText r.calibrations).length + 1 ≤ 4096) :
    ∃ r' pts, keyCalibratingHandle kv r 13 = some r' ∧
      kv.getValue r'.cfg r.state.key = some pts ∧
      loadRoiPoints kv r'.cfg r.state.key = r.calibrations ∧
      maskPoints kv r'.cfg r.state.key = r.calibrations := by
  have hvalue : kv.getValue (kv.saveAs (kv.setValue r.cfg r.state.key
      (.ofBuffer (pointsText r.calibrations)))) r.state.key =
        some (.ofBuffer (pointsText r.calibrations)) := by
    rw [kv.getValue_saveAs, kv.getValue_setValue]
  have hsave := saveCalibration_cases kv (Or.inr hr)
  rw [if_neg (by omega), if_pos hfits] at hsave
  have hscan := scanPoints_pointsText r.calibrations
  rw [← hvalue] at hscan
  refine ⟨_, _, by rw [keyCalibratingHandle_enter, hsave]; rfl, hvalue, ?_, ?_⟩
  · exact hscan
  · exact hscan

/-- Clicking in one of the states, with an area that was saved for the first one. -/
def clicking (state : State) (points : List CvPoint) : TeacherRunning (CStr → Option CStr) where
  cfg := fun key => if key = calibrationData then some (.ofString "1,1;9,1;9,9;1,9;") else none
  state := state
  calibrations := points
  enableMask := false
  imgMask := cvSet
  masked := false

/-- Four points around the corner of the window. -/
def corner : List CvPoint :=
  [⟨toCInt (-7), toCInt 0⟩, ⟨toCInt 12, toCInt (-3)⟩, ⟨toCInt 640, toCInt 25⟩, ⟨toCInt 0, toCInt 9⟩]

theorem calibration_read_back_corner :
    ∃ r' pts, keyCalibratingHandle plainConfig (clicking .calibrating2 corner) 13 = some r' ∧
      plainConfig.getValue r'.cfg (clicking .calibrating2 corner).state.key = some pts ∧
      loadRoiPoints plainConfig r'.cfg (clicking .calibrating2 corner).state.key =
        (clicking .calibrating2 corner).calibrations ∧
      maskPoints plainConfig r'.cfg (clicking .calibrating2 corner).state.key =
        (clicking .calibrating2 corner).calibrations :=
  calibration_read_back (Or.inl rfl) (by decide) (by decide +kernel)

/-! ## What ENTER and ESC leave alone -/

/-- No area is saved under the key. -/
def NoArea (kv : KVConfig Config) (cfg : Config) (key : CStr) : Prop :=
  kv.getValue cfg key = none ∨ kv.getValue cfg key = some (.ofString "")

/-- ENTER changes the key of the state only, and with fewer than four points there is no
area under it afterwards; ESC changes no key. -/
structure ChangesOwnKey (kv : KVConfig Config) (r : TeacherRunning Config) : Prop where
  enter : ∃ r', keyCalibratingHandle kv r 13 = some r' ∧
    (∀ key, key ≠ r.state.key → kv.getValue r'.cfg key = kv.getValue r.cfg key) ∧
    (r.calibrations.length < 4 → NoArea kv r'.cfg r.state.key)
  esc : ∃ r', keyCalibratingHandle kv r 27 = some r' ∧
    ∀ key, kv.getValue r'.cfg key = kv.getValue r.cfg key

/-- With too few points it has to be the first state, or nothing to remove and nothing to
spoil; with enough of them their text has to fit the buffer. -/
def EnterFits (kv : KVConfig Config) (r : TeacherRunning Config) : Prop :=
  if r.calibrations.length < 4 then
    r.state = .calibrating ∨
      (kv.getValue r.cfg calibrationData = some (.ofString "") ∧ NoArea kv r.cfg r.state.key)
  else (pointsText r.calibrations).length + 1 ≤ 4096

theorem key_ne_calibrationData {s : State} (hs : s.Calibrating) (hne : s ≠ .calibrating) :
    s.key ≠ calibrationData := by
  rcases hs with rfl | rfl | rfl
  · exact absurd rfl hne
  · decide +kernel
  · decide +kernel

/-- ENTER with too few points empties the first key, whatever the state is. -/
theorem enter_tooFew_iff (hr : r.state.Calibrating) (hfew : r.calibrations.length < 4) :
    (∃ r', keyCalibratingHandle kv r 13 = some r' ∧
        (∀ key, key ≠ r.state.key → kv.getValue r'.cfg key = kv.getValue r.cfg key) ∧
        (r.calibrations.length < 4 → NoArea kv r'.cfg r.state.key)) ↔
      r.state = .calibrating ∨
        (kv.getValue r.cfg calibrationData = some (.ofString "") ∧
          NoArea kv r.cfg r.state.key) := by
  have hsave := saveCalibration_cases kv hr
  rw [if_pos hfew] at hsave
  have hempty : kv.getValue (kv.saveAs (kv.setValue r.cfg calibrationData (.ofString "")))
      calibrationData = some (.ofString "") := by
    rw [kv.getValue_saveAs, kv.getValue_setValue]
  have hkept : ∀ key, key ≠ calibrationData →
      kv.getValue (kv.saveAs (kv.setValue r.cfg calibrationData (.ofString ""))) key =
        kv.getValue r.cfg key := by
    intro key hkey
    rw [kv.getValue_saveAs, kv.getValue_setValue_ne _ _ hkey]
  rw [keyCalibratingHandle_enter, hsave, Option.map_some]
  simp only [Option.some.injEq, exists_eq_left']
  by_cases hstate : r.state = .calibrating
  · refine iff_of_true ⟨?_, fun _ => Or.inr ?_⟩ (Or.inl hstate)
    · rw [hstate]
      exact hkept
    · rw [hstate]
      exact hempty
  · have hne := key_ne_calibrationData hr hstate
    rw [or_iff_right hstate, NoArea, hkept _ hne, ← NoArea]
    constructor
    · rintro ⟨hkeys, harea⟩
      refine ⟨?_, harea hfew⟩
      rw [← hkeys _ hne.symm, hempty]
    · rintro ⟨hdata, harea⟩
      refine ⟨fun key hkey => ?_, fun _ => harea⟩
      by_cases hkey : key = calibrationData
      · rw [hkey, hempty, hdata]
      · exact hkept key hkey

/-- ENTER with enough points changes the key of the state, when their text fits. -/
theorem enter_enough_iff (hr : r.state.Calibrating) (henough : ¬ r.calibrations.length < 4) :
    (∃ r', keyCalibratingHandle kv r 13 = some r' ∧
        (∀ key, key ≠ r.state.key → kv.getValue r'.cfg key = kv.getValue r.cfg key) ∧
        (r.calibrations.length < 4 → NoArea kv r'.cfg r.state.key)) ↔
      (pointsText r.calibrations).length + 1 ≤ 4096 := by
  have hsave := saveCalibration_cases kv hr
  rw [if_neg henough] at hsave
  rw [keyCalibratingHandle_enter, hsave]
  by_cases hfits : (pointsText r.calibrations).length + 1 ≤ 4096
  · rw [if_pos hfits, Option.map_some]
    refine iff_of_true ⟨_, rfl, fun key hkey => ?_, fun hfew => absurd hfew henough⟩ hfits
    dsimp only
    rw [kv.getValue_saveAs, kv.getValue_setValue_ne _ _ hkey]
  · rw [if_neg hfits, Option.map_none]
    exact iff_of_false (fun ⟨_, hnone, _⟩ => by cases hnone) hfits

/-- The keys of the calibration change as they should exactly when ENTER is pressed with
points that it can deal with. -/
theorem changesOwnKey_iff (hr : r.state.Calibrating) : ChangesOwnKey kv r ↔ EnterFits kv r := by
  have hesc : ∃ r', keyCalibratingHandle kv r 27 = some r' ∧
      ∀ key, kv.getValue r'.cfg key = kv.getValue r.cfg key :=
    ⟨_, rfl, fun _ => rfl⟩
  have henter : ChangesOwnKey kv r ↔ _ := ⟨fun h => h.enter, fun h => ⟨h, hesc⟩⟩
  rw [henter, EnterFits]
  split_ifs with hfew
  · exact enter_tooFew_iff hr hfew
  · exact enter_enough_iff hr hfew

theorem changesOwnKey_iff_corner :
    ChangesOwnKey plainConfig (clicking .calibrating2 corner) ↔
      EnterFits plainConfig (clicking .calibrating2 corner) :=
  changesOwnKey_iff (Or.inr (Or.inl rfl))

/-- ENTER without points in the second state destroys the area of the first one. -/
theorem not_changesOwnKey :
    ¬ ∀ (Config : Type) (kv : KVConfig Config) (r : TeacherRunning Config),
      r.state.Calibrating → ChangesOwnKey kv r := by
  intro h
  have hr : (clicking .calibrating2 []).state.Calibrating := Or.inr (Or.inl rfl)
  have henter := (h _ plainConfig _ hr).enter
  rw [enter_tooFew_iff hr (by decide)] at henter
  rcases henter with hstate | ⟨hdata, -⟩
  · revert hstate
    decide
  · revert hdata
    decide +kernel

end

end LibSimple.Teacher
