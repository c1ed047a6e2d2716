import Mathlib.Data.Rat.Defs
import Mathlib.Tactic.SplitIfs

/-!
# Durations and debouncing in `TeacherPtz`

`AreaDuration`, which keeps the time for which the teacher has been detected or not, and
`ChkValidData`.  Both take a change for real only when it lasts for some samples.  Stamps
and durations are exact rationals.
-/

namespace LibSimple.Teacher

/-! ## `AreaDuration` -/

/-- `AreaDuration` -/
structure AreaDuration where
  area : ℤ
  durationValid : ℚ
  durationInvalid : ℚ
  durationValidArea : ℚ
  last : ℚ
  contiousCnt : ℤ
  valid : Bool

namespace AreaDuration

/-- `CONTINIOUS_COUNT` -/
def continiousCount : ℤ := 2

/-- The constructor. -/
def create : AreaDuration where
  area := -1
  durationValid := 0
  durationInvalid := 0
  durationValidArea := 0
  last := -1
  contiousCnt := continiousCount
  valid := false

/-- `set_area` -/
def setArea (d : AreaDuration) (id : ℤ) : AreaDuration :=
  let changed := d.area ≠ id
  let d := { d with area := id }
  if changed then { d with durationValidArea := 0 } else d

/-- `set_valid_stamp` -/
def setValidStamp (d : AreaDuration) (stamp : ℚ) : AreaDuration :=
  let d :=
    if d.last > 0 then
      { d with
        durationValid := d.durationValid + (stamp - d.last)
        durationValidArea := d.durationValidArea + (stamp - d.last) }
    else d
  let d := { d with last := stamp }
  if !d.valid then
    let d := { d with contiousCnt := d.contiousCnt - 1 }
    if d.contiousCnt = 0 then
      { d with contiousCnt := continiousCount, valid := true, durationInvalid := 0 }
    else d
  else { d with contiousCnt := continiousCount }

/-- `set_invalid_stamp` -/
def setInvalidStamp (d : AreaDuration) (stamp : ℚ) : AreaDuration :=
  let d :=
    if d.last > 0 then { d with durationInvalid := d.durationInvalid + (stamp - d.last) } else d
  let d := { d with last := stamp }
  if d.valid then
    let d := { d with contiousCnt := d.contiousCnt - 1 }
    if d.contiousCnt = 0 then
      { d with
        contiousCnt := continiousCount
        valid := false
        durationValidArea := 0
        durationValid := 0 }
    else d
  else { d with contiousCnt := continiousCount }

/-- `is_valid` -/
def isValid (d : AreaDuration) : Bool := d.valid

/-- `valid_duration` -/
def validDuration (d : AreaDuration) : ℚ := if d.valid then d.durationValid else 0

/-- `valid_duration_area` -/
def validDurationArea (d : AreaDuration) : ℚ := if d.valid then d.durationValidArea else 0

/-- `invalid_duration` -/
def invalidDuration (d : AreaDuration) : ℚ := if !d.valid then d.durationInvalid else 0

/-- A call of one of the three functions that change an `AreaDuration`. -/
inductive Call
  | setValidStamp (stamp : ℚ)
  | setInvalidStamp (stamp : ℚ)
  | setArea (id : ℤ)

def call (d : AreaDuration) : Call → AreaDuration
  | .setValidStamp stamp => d.setValidStamp stamp
  | .setInvalidStamp stamp => d.setInvalidStamp stamp
  | .setArea id => d.setArea id

/-- The object after these calls, the newest of which comes first. -/
def after : List Call → AreaDuration
  | [] => create
  | c :: earlier => (after earlier).call c

end AreaDuration

/-- A detection that `AreaDuration` is told of. -/
structure Sample where
  valid : Bool
  stamp : ℚ

namespace AreaDuration

def Call.sample? : Call → Option Sample
  | .setValidStamp stamp => some ⟨true, stamp⟩
  | .setInvalidStamp stamp => some ⟨false, stamp⟩
  | .setArea _ => none

/-- The samples of the calls, newest first. -/
def samples (calls : List Call) : List Sample := calls.filterMap Call.sample?

end AreaDuration

/-! ## What a sample does -/

namespace AreaDuration

/-- The call for a sample. -/
def stamped (d : AreaDuration) (x : Sample) : AreaDuration :=
  if x.valid then d.setValidStamp x.stamp else d.setInvalidStamp x.stamp

/-- The time that is counted for samples of this kind. -/
def duration (d : AreaDuration) (kind : Bool) : ℚ :=
  if kind then d.durationValid else d.durationInvalid

/-- The time since the sample before. -/
def gap (d : AreaDuration) (stamp : ℚ) : ℚ := if d.last > 0 then stamp - d.last else 0

/-- A sample of this kind changes the state. -/
def Switches (d : AreaDuration) (kind : Bool) : Prop := kind ≠ d.valid ∧ d.contiousCnt = 1

instance (d : AreaDuration) (kind : Bool) : Decidable (d.Switches kind) :=
  inferInstanceAs (Decidable (_ ∧ _))

/-- What a sample makes of an `AreaDuration`; the two kinds differ in what they do to the
duration for the area. -/
structure Stamped (d : AreaDuration) (x : Sample) (d' : AreaDuration) : Prop where
  area : d'.area = d.area
  last : d'.last = x.stamp
  valid : d'.valid = if d.Switches x.valid then x.valid else d.valid
  contiousCnt : d'.contiousCnt =
    if x.valid ≠ d.valid ∧ d.contiousCnt ≠ 1 then d.contiousCnt - 1 else continiousCount
  own : d'.duration x.valid = d.duration x.valid + d.gap x.stamp
  other : d'.duration (!x.valid) = if d.Switches x.valid then 0 else d.duration (!x.valid)
  validArea : d'.durationValidArea =
    if x.valid then d.durationValidArea + d.gap x.stamp
    else if d.Switches x.valid then 0 else d.durationValidArea

/-- How far a sample of this kind moves the counter. -/
def counted (d : AreaDuration) (kind : Bool) : ℤ :=
  if kind ≠ d.valid ∧ d.contiousCnt ≠ 1 then d.contiousCnt - 1 else continiousCount

theorem setValidStamp_eq (d : AreaDuration) (stamp : ℚ) :
    d.setValidStamp stamp =
      { d with
        durationValid := d.durationValid + d.gap stamp
        durationInvalid := if d.Switches true then 0 else d.durationInvalid
        durationValidArea := d.durationValidArea + d.gap stamp
        last := stamp
        contiousCnt := d.counted true
        valid := if d.Switches true then true else d.valid } := by
  have hadd : (if d.last > 0 then
      { d with
        durationValid := d.durationValid + (stamp - d.last)
        durationValidArea := d.durationValidArea + (stamp - d.last) }
      else d) =
        { d with
          durationValid := d.durationValid + d.gap stamp
          durationValidArea := d.durationValidArea + d.gap stamp } := by
    rw [gap]
    split_ifs
    · rfl
    · rw [add_zero, add_zero]
  rw [setValidStamp, hadd]
  cases hvalid : d.valid with
  | true => simp [Switches, counted, hvalid]
  | false =>
      by_cases hone : d.contiousCnt = 1
      · simp [Switches, counted, hvalid, hone]
      · simp [Switches, counted, hvalid, hone, Int.sub_eq_zero]

theorem setInvalidStamp_eq (d : AreaDuration) (stamp : ℚ) :
    d.setInvalidStamp stamp =
      { d with
        durationValid := if d.Switches false then 0 else d.durationValid
        durationInvalid := d.durationInvalid + d.gap stamp
        durationValidArea := if d.Switches false then 0 else d.durationValidArea
        last := stamp
        contiousCnt := d.counted false
        valid := if d.Switches false then false else d.valid } := by
  have hadd : (if d.last > 0 then
      { d with durationInvalid := d.durationInvalid + (stamp - d.last) } else d) =
        { d with durationInvalid := d.durationInvalid + d.gap stamp } := by
    rw [gap]
    split_ifs
    · rfl
    · rw [add_zero]
  rw [setInvalidStamp, hadd]
  cases hvalid : d.valid with
  | false => simp [Switches, counted, hvalid]
  | true =>
      by_cases hone : d.contiousCnt = 1
      · simp [Switches, counted, hvalid, hone]
      · simp [Switches, counted, hvalid, hone, Int.sub_eq_zero]

theorem stamped_spec (d : AreaDuration) (x : Sample) : Stamped d x (d.stamped x) := by
  obtain ⟨kind, stamp⟩ := x
  cases kind with
  | true =>
      have hcall : d.stamped ⟨true, stamp⟩ = _ := d.setValidStamp_eq stamp
      rw [hcall]
      exact ⟨rfl, rfl, rfl, rfl, rfl, rfl, rfl⟩
  | false =>
      have hcall : d.stamped ⟨false, stamp⟩ = _ := d.setInvalidStamp_eq stamp
      rw [hcall]
      exact ⟨rfl, rfl, rfl, rfl, rfl, rfl, rfl⟩

/-- A call gives a sample, or it only has to do with the area. -/
theorem after_cons_cases (c : Call) (earlier : List Call) :
    (∃ x, samples (c :: earlier) = x :: samples earlier ∧
        after (c :: earlier) = (after earlier).stamped x) ∨
      samples (c :: earlier) = samples earlier ∧
        ∃ id, after (c :: earlier) = (after earlier).setArea id := by
  cases c with
  | setValidStamp stamp => exact Or.inl ⟨⟨true, stamp⟩, rfl, rfl⟩
  | setInvalidStamp stamp => exact Or.inl ⟨⟨false, stamp⟩, rfl, rfl⟩
  | setArea id => exact Or.inr ⟨rfl, id, rfl⟩

/-- `set_area` leaves everything alone but the area and the duration for it. -/
theorem setArea_spec (d : AreaDuration) (id : ℤ) :
    (d.setArea id).last = d.last ∧ (d.setArea id).valid = d.valid ∧
      (d.setArea id).contiousCnt = d.contiousCnt ∧
      (∀ kind, (d.setArea id).duration kind = d.duration kind) ∧
      ((d.setArea id).durationValidArea = d.durationValidArea ∨
        (d.setArea id).durationValidArea = 0) := by
  rw [setArea]
  dsimp only
  split_ifs with hchanged
  · exact ⟨rfl, rfl, rfl, fun _ => rfl, Or.inr rfl⟩
  · exact ⟨rfl, rfl, rfl, fun _ => rfl, Or.inl rfl⟩

end AreaDuration

/-! ## `ChkValidData` -/

/-- `ChkValidData` -/
structure ChkValidData where
  lastValid : Bool
  curr : Bool
  contiousCnt : ℤ
  changedStamp : ℚ

namespace ChkValidData

/-- `VALID_CONTIOUS` -/
def validContious : ℤ := 5

/-- The constructor at the time `now`. -/
def create (now : ℚ) : ChkValidData where
  lastValid := false
  curr := false
  contiousCnt := validContious
  changedStamp := now

/-- `update` -/
def update (s : ChkValidData) (d : Bool) (stamp : ℚ) : ChkValidData × Bool :=
  if d = s.lastValid then
    if d = s.curr then (s, s.curr)
    else
      let s := { s with contiousCnt := s.contiousCnt - 1 }
      if s.contiousCnt ≤ 0 then
        let s := { s with contiousCnt := validContious, curr := d, changedStamp := stamp }
        (s, s.curr)
      else (s, s.curr)
  else
    let s := { s with lastValid := d, contiousCnt := validContious }
    (s, s.curr)

/-- The object after these updates, the newest of which comes first. -/
def after (now : ℚ) : List Sample → ChkValidData
  | [] => create now
  | x :: earlier => ((after now earlier).update x.valid x.stamp).1

end ChkValidData

end LibSimple.Teacher
