import LibSimple.Support.CLang

/-!
# Waiting with a timeout

`simple_sem_wait_timeout` of `semaphore.c` and `simple_thread_chkreq` of `thread.c`
on a POSIX system.  What the system does in `clock_gettime` and `sem_timedwait` is
given from outside: the reading of the clock, and the ways in which a wait may end.
-/

namespace LibSimple.Semaphore

/-- `struct timespec` -/
@[ext]
structure Timespec where
  tvSec : ℤ
  tvNsec : ℤ
  deriving DecidableEq

namespace Timespec

/-- The nanoseconds that a `timespec` stands for. -/
def nanoseconds (ts : Timespec) : ℤ := ts.tvSec * 1000000000 + ts.tvNsec

/-- A `timespec` with a fraction below one second, as a clock gives and as
`sem_timedwait` wants. -/
def Valid (ts : Timespec) : Prop := 0 ≤ ts.tvNsec ∧ ts.tvNsec < 1000000000

instance (ts : Timespec) : Decidable ts.Valid :=
  inferInstanceAs (Decidable (0 ≤ ts.tvNsec ∧ ts.tvNsec < 1000000000))

end Timespec

/-- `x + y` on `time_t`, an `int` of 64 bits. -/
def addTime (x y : ℤ) : ℤ := Int.bmod (x + y) 18446744073709551616

/-- The deadline that `simple_sem_wait_timeout` passes to `sem_timedwait` when
`clock_gettime` has read `now`. -/
def deadline (now : Timespec) (timeoutMs : ℤ) : Timespec :=
  let tvSec := addTime now.tvSec (timeoutMs.tdiv 1000)
  let tvNsec := now.tvNsec + timeoutMs.tmod 1000 * 1000000
  if tvNsec > 1000000000 then
    ⟨addTime tvSec 1, tvNsec - 1000000000⟩
  else
    ⟨tvSec, tvNsec⟩

/-- The errors of `sem_timedwait` -/
inductive Errno
  | etimedout
  | einval
  | eintr
  deriving DecidableEq

/-- The ways in which a call of `sem_timedwait` at time `start` with the deadline `ts`
may end: with a token or an error, and when.  A signal handler may end it early where
the program has one (`interruptible`). -/
inductive SemTimedwait (interruptible : Prop) (start : ℤ) (ts : Timespec) :
    Option Errno → ℤ → Prop
  | acquired {time} (h : start ≤ time) : SemTimedwait interruptible start ts none time
  | timedOut {time} (h : start ≤ time) (hvalid : ts.Valid) (hpast : ts.nanoseconds ≤ time) :
      SemTimedwait interruptible start ts (some .etimedout) time
  | invalid {time} (h : start ≤ time) (hvalid : ¬ ts.Valid) :
      SemTimedwait interruptible start ts (some .einval) time
  | interrupted {time} (h : start ≤ time) (hint : interruptible) :
      SemTimedwait interruptible start ts (some .eintr) time

/-- What `sem_timedwait` returns. -/
def semTimedwaitResult : Option Errno → ℤ
  | none => 0
  | some _ => -1

/-- `simple_sem_wait_timeout` may return `result` at `time` when the clock has read `now`. -/
def SimpleSemWaitTimeout (interruptible : Prop) (now : Timespec) (timeoutMs result time : ℤ) :
    Prop :=
  ∃ start error, now.nanoseconds ≤ start ∧
    SemTimedwait interruptible start (deadline now timeoutMs) error time ∧
    result = if semTimedwaitResult error = -1 then -1 else 0

/-- `simple_thread_chkreq` may return `result` at `time`, with `req` stored in `*req`
when there is a request to be taken from `th->req`. -/
def SimpleThreadChkreq {Req : Type} (interruptible : Prop) (now : Timespec) (timeout : ℤ)
    (threadReq : Req) (result : ℤ) (req : Option Req) (time : ℤ) : Prop :=
  ∃ rc, SimpleSemWaitTimeout interruptible now timeout rc time ∧
    (result, req) = if rc = 0 then (1, some threadReq) else (0, none)

end LibSimple.Semaphore
