import Mathlib.Order.Monotone.Basic
import RepositoryManager.Utils

/-! # The timer

`Timer.h`: three time stamps in nanoseconds, the time spent between a stop and the
resume after it, and two flags. Over it stands a stopwatch, which adds up the time that
it runs. A duration that is asked for stops the timer and resumes it, so what passes
between the two readings of the clock is no running time; a timer that was stopped is
resumed too.

The clock never goes back, and each of its readings is a `tulong`.
-/

namespace RepositoryManager

/-- The `unsigned long long` that is left of a number. -/
def tulong (n : Int) : Nat := (n % 18446744073709551616).toNat

theorem tulong_of_nat {n : Nat} (bound : n < 18446744073709551616) : tulong n = n := by
  unfold tulong
  omega

/-- What `clock_gettime` gives at its calls, in nanoseconds. -/
structure Clock where
  reading : Nat → Nat
  mono : Monotone reading
  bounded : ∀ i, reading i < 18446744073709551616

/-! ## The timer -/

structure Timer where
  startTime : Nat
  endTime : Nat
  curTime : Nat
  offset : Nat
  stopped : Bool
  started : Bool
  deriving DecidableEq

namespace Timer

/-- `Timer()`; the start and the end are what the memory holds. -/
def make (startTime endTime now : Nat) : Timer :=
  { startTime, endTime, curTime := now, offset := 0, stopped := true, started := false }

/-- Starts the timer, or reports that it has been started already. -/
def start (now : Nat) (t : Timer) : Nat × Timer :=
  if t.stopped then
    (now, { t with stopped := false, startTime := now, curTime := now, started := true })
  else (0, t)

/-- Stops the timer, or reports that it has not been started. -/
def stop (now : Nat) (t : Timer) : Nat × Timer :=
  if !t.stopped then (now, { t with stopped := true, endTime := now, curTime := now })
  else (0, t)

/-- Resumes a stopped timer, or reports that it has not been stopped. -/
def resume (now : Nat) (t : Timer) : Nat × Timer :=
  if t.stopped then
    let offset := tulong (t.offset + tulong (now - t.endTime))
    (offset, { t with offset, curTime := now, stopped := false })
  else (t.offset, t)

/-- Reset the timer. -/
def reset (now : Nat) (t : Timer) : Timer :=
  { t with offset := 0, stopped := true, started := false, startTime := now }

/-- The first lines of `getDurationNSecs`: a timer that runs is stopped. The number is that of
    the next reading. -/
def halted (clock : Clock) (n : Nat) (t : Timer) : Timer × Nat :=
  if !t.stopped then ((t.stop (clock.reading n)).2, n + 1) else (t, n)

/-- `endTime - startTime - offset` before it is cut to a `tulong` -/
def span (t : Timer) : Int := t.endTime - t.startTime - t.offset

/-- Compute the duration of the interval from start to stop. -/
def getDurationNSecs (clock : Clock) (n : Nat) (t : Timer) : Nat × Timer × Nat :=
  let (t, n) := t.halted clock n
  let ret := tulong t.span
  (ret, (t.resume (clock.reading n)).2, n + 1)

end Timer

/-- A call on a timer. -/
inductive TimerCall where
  | start
  | stop
  | resume
  | reset
  | getDurationNSecs
  deriving DecidableEq

/-- The timer does not answer with its error message. -/
def TimerCall.Accepted (t : Timer) : TimerCall → Prop
  | .start | .resume => t.stopped = true
  | .stop => t.stopped = false
  | .reset | .getDurationNSecs => True

/-- The timer after a call, and the number of the next reading of the clock. -/
def Timer.after (clock : Clock) (n : Nat) (t : Timer) : TimerCall → Timer × Nat
  | .start => ((t.start (clock.reading n)).2, n + 1)
  | .stop => ((t.stop (clock.reading n)).2, n + 1)
  | .resume => ((t.resume (clock.reading n)).2, n + 1)
  | .reset => (t.reset (clock.reading n), n + 1)
  | .getDurationNSecs => (t.getDurationNSecs clock n).2

/-! ## The stopwatch -/

/-- The time that has been added up, and since when the watch runs. -/
structure Stopwatch where
  total : Nat
  since : Option Nat
  deriving DecidableEq

namespace Stopwatch

/-- Time is added up from now on. -/
def start (now : Nat) : Stopwatch := { total := 0, since := some now }

def stop (now : Nat) (w : Stopwatch) : Stopwatch :=
  match w.since with
  | some since => { total := w.total + (now - since), since := none }
  | none => w

def resume (now : Nat) (w : Stopwatch) : Stopwatch := { w with since := some now }

/-- The time that the watch has been running when it is asked, at reading `n`. -/
def asked (clock : Clock) (n : Nat) (w : Stopwatch) : Nat := (w.stop (clock.reading n)).total

/-- The watch after a call of a timer that uses the clock from reading `n` on. Who asks a
    stopped watch leaves it stopped. -/
def after (clock : Clock) (n : Nat) (w : Stopwatch) : TimerCall → Stopwatch
  | .start => start (clock.reading n)
  | .stop | .reset => w.stop (clock.reading n)
  | .resume => w.resume (clock.reading n)
  | .getDurationNSecs =>
      match w.since with
      | some _ => (w.stop (clock.reading n)).resume (clock.reading (n + 1))
      | none => w

end Stopwatch

/-! ## Series of calls -/

/-- Each call of a series is accepted. -/
def Timer.Accepts (clock : Clock) : Nat → Timer → List TimerCall → Prop
  | _, _, [] => True
  | n, t, call :: calls =>
      call.Accepted t ∧ Accepts clock (t.after clock n call).2 (t.after clock n call).1 calls

/-- A duration is the time that the watch has been running, its difference is not below zero,
    and who asks for it leaves the timer stopped if it was. -/
def Timer.Measures (clock : Clock) (n : Nat) (t : Timer) (w : Stopwatch) : Prop :=
  (t.getDurationNSecs clock n).1 = w.asked clock n ∧ 0 ≤ (t.halted clock n).1.span ∧
    (t.getDurationNSecs clock n).2.1.stopped = t.stopped

/-- Each duration that is asked for in a series of calls is right. -/
def Timer.Accounts (clock : Clock) : Nat → Timer → Stopwatch → List TimerCall → Prop
  | _, _, _, [] => True
  | n, t, w, call :: calls =>
      (call = .getDurationNSecs → t.Measures clock n w) ∧
        Accounts clock (t.after clock n call).2 (t.after clock n call).1 (w.after clock n call)
          calls

/-- The calls for which the offset is kept: a start finds none of it, what is resumed has been
    started, and only a running timer is asked. -/
def TimerCall.Careful (t : Timer) : TimerCall → Prop
  | .start => t.stopped = true ∧ t.offset = 0
  | .stop => t.stopped = false
  | .resume => t.stopped = true ∧ t.started = true
  | .reset => True
  | .getDurationNSecs => t.stopped = false

/-- Each call of a series is of these. -/
def Timer.Keeps (clock : Clock) : Nat → Timer → List TimerCall → Prop
  | _, _, [] => True
  | n, t, call :: calls =>
      call.Careful t ∧ Keeps clock (t.after clock n call).2 (t.after clock n call).1 calls

/-! ## The timer and the watch in step -/

/-- What the time stamps of a timer say about the watch, before reading `n`. -/
inductive InStep (clock : Clock) (n : Nat) : Timer → Stopwatch → Prop where
  /-- The watch runs since the start, the offset and the time added up. -/
  | running {t : Timer} {total since : Nat} (stopped : t.stopped = false)
      (started : t.started = true) (stamps : since = t.startTime + t.offset + total)
      (past : since ≤ clock.reading n) : InStep clock n t { total, since := some since }
  /-- The timer was stopped then. -/
  | stopped {t : Timer} {total : Nat} (stopped : t.stopped = true)
      (stamps : t.endTime = t.startTime + t.offset + total) (past : t.endTime ≤ clock.reading n) :
      InStep clock n t { total, since := none }
  /-- The timer has not been started since it was made or reset. -/
  | idle {t : Timer} {total : Nat} (stopped : t.stopped = true) (started : t.started = false) :
      InStep clock n t { total, since := none }

variable {clock : Clock} {n : Nat} {t : Timer} {w : Stopwatch}

theorem Clock.next (clock : Clock) (n : Nat) : clock.reading n ≤ clock.reading (n + 1) :=
  clock.mono (Nat.le_succ n)

theorem start_inStep (stopped : t.stopped = true) (noOffset : t.offset = 0) :
    InStep clock (n + 1) (t.start (clock.reading n)).2 (Stopwatch.start (clock.reading n)) := by
  rw [Timer.start, if_pos stopped]
  exact .running rfl rfl (by simp [noOffset]) (clock.next n)

theorem stop_inStep (inStep : InStep clock n t w) (runs : t.stopped = false) :
    InStep clock (n + 1) (t.stop (clock.reading n)).2 (w.stop (clock.reading n)) := by
  cases inStep with
  | running stopped started stamps past =>
      simp only [Timer.stop, stopped, Bool.not_false, if_true, Stopwatch.stop]
      refine .stopped rfl ?_ (clock.next n)
      simp only
      omega
  | stopped stopped => rw [stopped] at runs; cases runs
  | idle stopped => rw [stopped] at runs; cases runs

theorem resume_inStep (inStep : InStep clock n t w) (stopped : t.stopped = true)
    (started : t.started = true) :
    InStep clock (n + 1) (t.resume (clock.reading n)).2 (w.resume (clock.reading n)) := by
  cases inStep with
  | running runs => rw [stopped] at runs; cases runs
  | stopped _ stamps past =>
      have bound := clock.bounded n
      have pause : tulong (clock.reading n - t.endTime : Int) = clock.reading n - t.endTime := by
        rw [← Int.ofNat_sub past]
        exact tulong_of_nat (by omega)
      have offset : tulong (t.offset + tulong (clock.reading n - t.endTime : Int)) =
          t.offset + (clock.reading n - t.endTime) := by
        rw [pause, ← Int.natCast_add]
        exact tulong_of_nat (by omega)
      simp only [Timer.resume, stopped, if_true, offset, Stopwatch.resume]
      refine .running rfl started ?_ (clock.next n)
      simp only
      omega
  | idle _ notStarted => rw [started] at notStarted; cases notStarted

theorem reset_inStep (clock : Clock) (n : Nat) (t : Timer) (w : Stopwatch) :
    InStep clock (n + 1) (t.reset (clock.reading n)) (w.stop (clock.reading n)) := by
  rcases w with ⟨total, since | since⟩
  · exact .idle rfl rfl
  · exact .idle rfl rfl

theorem getDurationNSecs_running (runs : t.stopped = false) :
    t.getDurationNSecs clock n =
      (tulong (t.stop (clock.reading n)).2.span,
        ((t.stop (clock.reading n)).2.resume (clock.reading (n + 1))).2, n + 2) := by
  simp [Timer.getDurationNSecs, Timer.halted, runs]

theorem span_of_stop (inStep : InStep clock n t w) (runs : t.stopped = false) :
    (t.stop (clock.reading n)).2.span = (w.asked clock n : Int) := by
  cases inStep with
  | running stopped started stamps past =>
      simp only [Timer.stop, stopped, Bool.not_false, if_true, Timer.span, Stopwatch.asked,
        Stopwatch.stop]
      omega
  | stopped stopped => rw [stopped] at runs; cases runs
  | idle stopped => rw [stopped] at runs; cases runs

theorem asked_lt (inStep : InStep clock n t w) (runs : t.stopped = false) :
    w.asked clock n < 18446744073709551616 := by
  have bound := clock.bounded n
  cases inStep with
  | running stopped started stamps past =>
      simp only [Stopwatch.asked, Stopwatch.stop]
      omega
  | stopped stopped => rw [stopped] at runs; cases runs
  | idle stopped => rw [stopped] at runs; cases runs

theorem getDurationNSecs_measures (inStep : InStep clock n t w) (runs : t.stopped = false) :
    t.Measures clock n w := by
  have halted : t.halted clock n = ((t.stop (clock.reading n)).2, n + 1) := by
    simp [Timer.halted, runs]
  have stopped : (t.stop (clock.reading n)).2.stopped = true := by simp [Timer.stop, runs]
  have spans := span_of_stop inStep runs
  rw [Timer.Measures, getDurationNSecs_running runs, halted]
  refine ⟨?_, ?_, ?_⟩
  · rw [spans]
    exact tulong_of_nat (asked_lt inStep runs)
  · rw [spans]
    exact Int.natCast_nonneg _
  · rw [Timer.resume, if_pos stopped, runs]

/-- A careful call keeps the timer and the watch in step. -/
theorem inStep_after {call : TimerCall} (inStep : InStep clock n t w) (careful : call.Careful t) :
    InStep clock (t.after clock n call).2 (t.after clock n call).1 (w.after clock n call) := by
  cases call with
  | start => exact start_inStep careful.1 careful.2
  | stop => exact stop_inStep inStep careful
  | resume => exact resume_inStep inStep careful.1 careful.2
  | reset => exact reset_inStep clock n t w
  | getDurationNSecs =>
      have runs : t.stopped = false := careful
      have stopped : (t.stop (clock.reading n)).2.stopped = true := by simp [Timer.stop, runs]
      have halted := stop_inStep inStep runs
      rw [Timer.after, getDurationNSecs_running runs]
      cases inStep with
      | running _ started =>
          exact resume_inStep halted stopped (by simpa [Timer.stop, runs] using started)
      | stopped stopped => rw [stopped] at runs; cases runs
      | idle stopped => rw [stopped] at runs; cases runs

theorem accounts_of_inStep (calls : List TimerCall) (inStep : InStep clock n t w)
    (keeps : t.Keeps clock n calls) : t.Accounts clock n w calls := by
  induction calls generalizing n t w with
  | nil => trivial
  | cons call calls ih =>
      refine ⟨?_, ih (inStep_after inStep keeps.1) keeps.2⟩
      rintro rfl
      exact getDurationNSecs_measures inStep keeps.1

/-- In every series of careful calls on a new timer, each duration is the time that the timer has
    been running since its last start. -/
theorem timer_accounts (clock : Clock) (startTime endTime : Nat) (calls : List TimerCall)
    (keeps : (Timer.make startTime endTime (clock.reading 0)).Keeps clock 1 calls) :
    (Timer.make startTime endTime (clock.reading 0)).Accounts clock 1
      { total := 0, since := none } calls :=
  accounts_of_inStep calls (.idle rfl rfl) keeps

/-- A clock that goes on by ten at each of its first readings. -/
def Clock.tens : Clock :=
  { reading := fun i => min (10 * i) 1000
    mono := fun i j le => by
      simp only
      omega
    bounded := fun i => by omega }

theorem timer_accounts_pause :
    (Timer.make 0 0 (Clock.tens.reading 0)).Accounts .tens 1 { total := 0, since := none }
      [.start, .stop, .resume, .getDurationNSecs, .stop] :=
  timer_accounts .tens 0 0 _ ⟨⟨rfl, rfl⟩, rfl, ⟨rfl, rfl⟩, rfl, rfl, trivial⟩

/-- A stopped timer that is asked twice: the calls are accepted, and the first one resumes it. -/
theorem stopped_timer_resumed :
    ¬ ((Timer.make 0 0 (Clock.tens.reading 0)).Accepts .tens 1
        [.start, .stop, .getDurationNSecs, .getDurationNSecs] →
      (Timer.make 0 0 (Clock.tens.reading 0)).Accounts .tens 1 { total := 0, since := none }
        [.start, .stop, .getDurationNSecs, .getDurationNSecs]) := by
  intro accounts
  obtain ⟨-, -, first, -⟩ := accounts ⟨rfl, rfl, trivial, trivial, trivial⟩
  have leftStopped := (first rfl).2.2
  revert leftStopped
  decide

/-! ## Calls that are not careful -/

/-- A stopped timer that is asked runs from then on. -/
theorem not_measures_of_stopped (w : Stopwatch) (stopped : t.stopped = true) :
    ¬ t.Measures clock n w := by
  rintro ⟨-, -, same⟩
  simp [Timer.getDurationNSecs, Timer.halted, Timer.resume, stopped] at same

/-- A duration from a start on that found an offset is short by that offset. -/
theorem not_measures_of_offset (stopped : t.stopped = true) (offset : t.offset ≠ 0)
    (bound : t.offset < 18446744073709551616) :
    ¬ (t.start (clock.reading n)).2.Measures clock (n + 1) (Stopwatch.start (clock.reading n)) := by
  rintro ⟨value, -, -⟩
  have next := clock.next n
  have upper := clock.bounded (n + 1)
  simp only [Timer.start, stopped, if_true, Timer.getDurationNSecs, Timer.halted, Timer.stop,
    Bool.not_false, Timer.span, Stopwatch.asked, Stopwatch.start, Stopwatch.stop, tulong] at value
  omega

/-- A timer that is resumed after a reset counts from the reset, less what passed since the stop
    before it. -/
theorem not_measures_of_reset {total : Nat} (stamps : t.endTime = t.startTime + t.offset + total)
    (past : t.endTime < clock.reading n) :
    ¬ ((t.reset (clock.reading n)).resume (clock.reading (n + 1))).2.Measures clock (n + 2)
      (Stopwatch.resume (clock.reading (n + 1)) { total, since := none }) := by
  rintro ⟨value, -, -⟩
  have first := clock.next n
  have second : clock.reading (n + 1) ≤ clock.reading (n + 2) := clock.next (n + 1)
  have upper := clock.bounded (n + 2)
  simp only [Timer.reset, Timer.resume, if_true, Timer.getDurationNSecs, Timer.halted, Timer.stop,
    Bool.not_false, Timer.span, Stopwatch.asked, Stopwatch.resume, Stopwatch.stop, tulong] at value
  omega

end RepositoryManager
