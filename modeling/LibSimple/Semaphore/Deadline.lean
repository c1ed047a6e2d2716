import LibSimple.Semaphore.Model
import Mathlib.Tactic.Ring

/-!
# The deadline of a wait

The nanoseconds of the clock and those of the timeout are added, and a whole second
is carried.  The carry compares with `>`, so that a sum of exactly one second stays
in `tv_nsec`, where `sem_timedwait` rejects it.
-/

namespace LibSimple.Semaphore

/-! ## Normal form -/

namespace Timespec

/-- The `timespec` with a fraction below one second that stands for `n` nanoseconds. -/
def ofNanoseconds (n : ℤ) : Timespec := ⟨n / 1000000000, n % 1000000000⟩

theorem valid_ofNanoseconds (n : ℤ) : (ofNanoseconds n).Valid :=
  ⟨Int.emod_nonneg n (by decide), Int.emod_lt_of_pos n (by decide)⟩

theorem nanoseconds_ofNanoseconds (n : ℤ) : (ofNanoseconds n).nanoseconds = n :=
  Int.ediv_mul_add_emod n 1000000000

/-- A fraction below one second makes the `timespec` of a time unique. -/
theorem eq_ofNanoseconds_iff {ts : Timespec} {n : ℤ} :
    ts = ofNanoseconds n ↔ ts.Valid ∧ ts.nanoseconds = n := by
  constructor
  · rintro rfl
    exact ⟨valid_ofNanoseconds n, nanoseconds_ofNanoseconds n⟩
  · rintro ⟨⟨hlo, hhi⟩, rfl⟩
    have hdiv : ts.nanoseconds / 1000000000 = ts.tvSec := by
      unfold nanoseconds
      omega
    have hmod : ts.nanoseconds % 1000000000 = ts.tvNsec := by
      unfold nanoseconds
      omega
    rw [ofNanoseconds, hdiv, hmod]

end Timespec

theorem addTime_addTime (x y z : ℤ) : addTime (addTime x y) z = addTime x (y + z) := by
  rw [addTime, addTime, addTime, Int.bmod_add_bmod, Int.add_assoc]

theorem addTime_le (x y : ℤ) : addTime x y ≤ 9223372036854775807 := by
  have hlt := Int.bmod_lt (x := x + y) (m := 18446744073709551616) (by decide)
  unfold addTime
  omega

/-- The sum is right as long as it is below the range's end. -/
theorem addTime_eq_iff {x y : ℤ} (hlo : -9223372036854775808 ≤ x + y) :
    addTime x y = x + y ↔ x + y ≤ 9223372036854775807 := by
  constructor
  · intro h
    exact h ▸ addTime_le x y
  · intro hhi
    unfold addTime
    apply Int.bmod_eq_of_le <;> omega

/-! ## The sum -/

/-- The time at which a wait from `now` is to end. -/
def requested (now : Timespec) (timeout : ℤ) : ℤ := now.nanoseconds + timeout * 1000000

/-- The nanoseconds of the clock and of the timeout's fraction of a second. -/
def fraction (now : Timespec) (timeout : ℤ) : ℤ :=
  now.tvNsec + timeout % 1000 * 1000000

/-- The deadline in one line: the seconds of the sum, and the carry. -/
theorem deadline_eq {now : Timespec} {timeout : ℤ} (htimeout : 0 ≤ timeout) :
    deadline now timeout =
      if fraction now timeout > 1000000000 then
        ⟨addTime now.tvSec (timeout / 1000 + 1), fraction now timeout - 1000000000⟩
      else
        ⟨addTime now.tvSec (timeout / 1000), fraction now timeout⟩ := by
  rw [deadline, Int.tdiv_eq_ediv_of_nonneg htimeout, Int.tmod_eq_emod_of_nonneg htimeout,
    addTime_addTime]
  rfl

/-- The requested time with a carry that leaves less than one second. -/
theorem ofNanoseconds_requested {now : Timespec} {timeout c : ℤ}
    (hlo : 0 ≤ fraction now timeout - c * 1000000000)
    (hhi : fraction now timeout - c * 1000000000 < 1000000000) :
    Timespec.ofNanoseconds (requested now timeout) =
      ⟨now.tvSec + (timeout / 1000 + c), fraction now timeout - c * 1000000000⟩ := by
  symm
  rw [Timespec.eq_ofNanoseconds_iff]
  refine ⟨⟨hlo, hhi⟩, ?_⟩
  simp only [Timespec.nanoseconds, requested, fraction]
  omega

/-- The deadline with a carry that leaves less than one second. -/
structure Carried (now : Timespec) (timeout : ℤ) : Prop where
  valid : (deadline now timeout).Valid
  eq_iff : deadline now timeout = .ofNanoseconds (requested now timeout) ↔
    requested now timeout / 1000000000 ≤ 9223372036854775807
  lt_of_ne : deadline now timeout ≠ .ofNanoseconds (requested now timeout) →
    (deadline now timeout).nanoseconds < requested now timeout

theorem carried {now : Timespec} (hsec : -9223372036854775808 ≤ now.tvSec) {timeout c : ℤ}
    (htimeout : 0 ≤ timeout) (hcarry : 0 ≤ c)
    (hlo : 0 ≤ fraction now timeout - c * 1000000000)
    (hhi : fraction now timeout - c * 1000000000 < 1000000000)
    (h : deadline now timeout = ⟨addTime now.tvSec (timeout / 1000 + c),
      fraction now timeout - c * 1000000000⟩) :
    Carried now timeout := by
  have hform := ofNanoseconds_requested hlo hhi
  have hdiv : requested now timeout / 1000000000 = now.tvSec + (timeout / 1000 + c) :=
    congrArg Timespec.tvSec hform
  have hiff : deadline now timeout = .ofNanoseconds (requested now timeout) ↔
      requested now timeout / 1000000000 ≤ 9223372036854775807 := by
    rw [h, hform, Timespec.mk.injEq, and_iff_left rfl, hdiv]
    exact addTime_eq_iff (by omega)
  refine ⟨by rw [h]; exact ⟨hlo, hhi⟩, hiff, ?_⟩
  intro hne
  have habove := mt hiff.mpr hne
  have hle := addTime_le now.tvSec (timeout / 1000 + c)
  rw [← Timespec.nanoseconds_ofNanoseconds (requested now timeout), hform, h]
  simp only [Timespec.nanoseconds]
  omega

theorem carried_of_fraction_ne {now : Timespec} (hnow : now.Valid)
    (hsec : -9223372036854775808 ≤ now.tvSec) {timeout : ℤ} (htimeout : 0 ≤ timeout)
    (hne : fraction now timeout ≠ 1000000000) : Carried now timeout := by
  obtain ⟨hnlo, hnhi⟩ := hnow
  have hlo : 0 ≤ fraction now timeout := by
    unfold fraction
    omega
  have hhi : fraction now timeout < 2000000000 := by
    unfold fraction
    omega
  by_cases hgt : fraction now timeout > 1000000000
  · exact carried (c := 1) hsec htimeout (by decide) (by omega) (by omega)
      (by rw [deadline_eq htimeout, if_pos hgt, one_mul])
  · exact carried (c := 0) hsec htimeout le_rfl (by omega) (by omega)
      (by rw [deadline_eq htimeout, if_neg hgt, add_zero, zero_mul, sub_zero])

/-- At a sum of exactly one second the carry is missed. -/
theorem not_valid_deadline {now : Timespec} {timeout : ℤ} (htimeout : 0 ≤ timeout)
    (h : fraction now timeout = 1000000000) : ¬ (deadline now timeout).Valid := by
  rw [deadline_eq htimeout, h, if_neg (lt_irrefl _)]
  exact fun hvalid => lt_irrefl _ hvalid.2

/-! ## The wait -/

/-- The deadline is one that `sem_timedwait` takes, and is the requested time. -/
def DeadlineRight (now : Timespec) (timeout : ℤ) : Prop :=
  (deadline now timeout).Valid ∧ (deadline now timeout).nanoseconds = requested now timeout

/-- `simple_thread_chkreq` reports a timeout only when the requested time has passed. -/
def NeverEarly {Req : Type} (interruptible : Prop) (now : Timespec) (timeout : ℤ)
    (threadReq : Req) : Prop :=
  ∀ req time, SimpleThreadChkreq interruptible now timeout threadReq 0 req time →
    requested now timeout ≤ time

/-- The carry is not at its boundary, and the second of the requested time is a `time_t`. -/
structure CarryMet (now : Timespec) (timeout : ℤ) : Prop where
  fraction_ne : fraction now timeout ≠ 1000000000
  second_le : requested now timeout / 1000000000 ≤ 9223372036854775807

/-- A timeout is reported when `sem_timedwait` fails, whatever its error. -/
theorem simpleThreadChkreq_zero_iff {Req : Type} {interruptible : Prop} {now : Timespec}
    {timeout : ℤ} {threadReq : Req} {req : Option Req} {time : ℤ} :
    SimpleThreadChkreq interruptible now timeout threadReq 0 req time ↔
      req = none ∧ ∃ start error, now.nanoseconds ≤ start ∧
        SemTimedwait interruptible start (deadline now timeout) (some error) time := by
  constructor
  · rintro ⟨rc, ⟨start, error, hstart, hwait, hrc⟩, hresult⟩
    cases error with
    | none =>
        rw [hrc] at hresult
        cases hresult
    | some error =>
        rw [hrc] at hresult
        exact ⟨congrArg Prod.snd hresult, start, error, hstart, hwait⟩
  · rintro ⟨rfl, start, error, hstart, hwait⟩
    exact ⟨-1, ⟨start, some error, hstart, hwait, rfl⟩, rfl⟩

theorem deadlineRight_iff {now : Timespec} (hnow : now.Valid)
    (hsec : -9223372036854775808 ≤ now.tvSec) {timeout : ℤ} (htimeout : 0 ≤ timeout) :
    DeadlineRight now timeout ↔ CarryMet now timeout := by
  rw [DeadlineRight, ← Timespec.eq_ofNanoseconds_iff]
  by_cases hne : fraction now timeout = 1000000000
  · refine iff_of_false (fun h => ?_) fun hmet => hmet.fraction_ne hne
    exact not_valid_deadline htimeout hne (h ▸ Timespec.valid_ofNanoseconds _)
  · rw [(carried_of_fraction_ne hnow hsec htimeout hne).eq_iff]
    exact ⟨fun hsecond => ⟨hne, hsecond⟩, CarryMet.second_le⟩

section

variable {Req : Type} {interruptible : Prop} {now : Timespec} {timeout : ℤ} {threadReq : Req}

theorem neverEarly_of_carryMet (hnow : now.Valid) (hsec : -9223372036854775808 ≤ now.tvSec)
    (htimeout : 0 ≤ timeout) (hmet : CarryMet now timeout)
    (hint : interruptible → timeout = 0) :
    NeverEarly interruptible now timeout threadReq := by
  intro req time hreport
  obtain ⟨hvalid, hns⟩ := (deadlineRight_iff hnow hsec htimeout).mpr hmet
  obtain ⟨-, start, error, hstart, hwait⟩ := simpleThreadChkreq_zero_iff.mp hreport
  cases hwait with
  | timedOut _ _ hpast => exact hns ▸ hpast
  | invalid _ hnot => exact absurd hvalid hnot
  | interrupted htime hi =>
      rw [requested, hint hi, zero_mul, add_zero]
      exact hstart.trans htime

/-- A timeout that may be reported at once had none to wait for. -/
theorem NeverEarly.eq_zero (h : NeverEarly interruptible now timeout threadReq)
    (htimeout : 0 ≤ timeout) {error : Errno}
    (hwait : SemTimedwait interruptible now.nanoseconds (deadline now timeout) (some error)
      now.nanoseconds) : timeout = 0 := by
  have hle := h none now.nanoseconds
    (simpleThreadChkreq_zero_iff.mpr ⟨rfl, now.nanoseconds, error, le_rfl, hwait⟩)
  unfold requested at hle
  omega

theorem NeverEarly.carryMet (h : NeverEarly interruptible now timeout threadReq)
    (hnow : now.Valid) (hlo : -9223372036854775808 ≤ now.tvSec)
    (hhi : now.tvSec ≤ 9223372036854775807) (htimeout : 0 ≤ timeout) :
    CarryMet now timeout := by
  have hne : fraction now timeout ≠ 1000000000 := by
    intro heq
    have hzero := h.eq_zero htimeout (.invalid le_rfl (not_valid_deadline htimeout heq))
    have hnsec := hnow.2
    rw [fraction, hzero] at heq
    omega
  have hcarried := carried_of_fraction_ne hnow hlo htimeout hne
  refine ⟨hne, hcarried.eq_iff.mp ?_⟩
  by_contra hwrong
  have hlt := hcarried.lt_of_ne hwrong
  -- a wrong deadline has passed by the time that it names, which is too early
  have hle := h none (max now.nanoseconds (deadline now timeout).nanoseconds)
    (simpleThreadChkreq_zero_iff.mpr ⟨rfl, now.nanoseconds, .etimedout, le_rfl,
      .timedOut (le_max_left _ _) hcarried.valid (le_max_right _ _)⟩)
  have hnow' : requested now timeout ≤ now.nanoseconds :=
    (le_max_iff.mp hle).resolve_right (not_le.mpr hlt)
  refine hwrong (hcarried.eq_iff.mpr ?_)
  have hnsec := hnow.2
  simp only [Timespec.nanoseconds] at hnow'
  omega

end

/-- `simple_sem_wait_timeout` passes the right deadline, and `simple_thread_chkreq`
reports no timeout before it, unless the fractions of a second come to exactly one
second, the time is out of range or a signal handler interrupts the wait. -/
theorem timed_wait_iff {Req : Type} (interruptible : Prop) (now : Timespec) (timeout : ℤ)
    (threadReq : Req) (hnow : now.Valid)
    (hsec : -9223372036854775808 ≤ now.tvSec ∧ now.tvSec ≤ 9223372036854775807)
    (htimeout : 0 ≤ timeout) :
    (DeadlineRight now timeout ↔ CarryMet now timeout) ∧
      (NeverEarly interruptible now timeout threadReq ↔
        CarryMet now timeout ∧ (interruptible → timeout = 0)) := by
  refine ⟨deadlineRight_iff hnow hsec.1 htimeout, ?_⟩
  constructor
  · intro h
    exact ⟨h.carryMet hnow hsec.1 hsec.2 htimeout, fun hi =>
      h.eq_zero htimeout (.interrupted le_rfl hi)⟩
  · rintro ⟨hmet, hint⟩
    exact neverEarly_of_carryMet hnow hsec.1 htimeout hmet hint

/-- One and a half seconds from the epoch, without signals. -/
theorem timed_wait_iff_epoch :
    DeadlineRight ⟨0, 0⟩ 1500 ∧ NeverEarly False ⟨0, 0⟩ 1500 () := by
  have hiff := timed_wait_iff False ⟨0, 0⟩ 1500 () (by decide) (by decide) (by decide)
  have hmet : CarryMet ⟨0, 0⟩ 1500 := ⟨by decide, by decide⟩
  exact ⟨hiff.1.mpr hmet, hiff.2.mpr ⟨hmet, False.elim⟩⟩

/-- Half a second after a clock reading of half a second: `tv_nsec` is `1000000000`, and
the timeout is reported at once. -/
theorem not_timed_wait_second :
    deadline ⟨0, 500000000⟩ 500 = ⟨0, 1000000000⟩ ∧
      ¬ DeadlineRight ⟨0, 500000000⟩ 500 ∧ ¬ NeverEarly False ⟨0, 500000000⟩ 500 () := by
  have hvalid : ¬ (deadline ⟨0, 500000000⟩ 500).Valid := by decide
  refine ⟨by decide, fun h => hvalid h.1, fun h => ?_⟩
  have hzero := h.eq_zero (by decide) (.invalid le_rfl hvalid)
  exact absurd hzero (by decide)

end LibSimple.Semaphore
