import Mathlib.Data.List.Induction
import RepositoryManager.Schedules

/-! # The thread of a query and the thread that waits for it

`executeQuery` starts a thread that runs XSB and sets `qStats` when the answer is
yes, waits for this flag or for a second to pass, and then detaches and signals the
thread in any case. A signal to a thread that has not terminated ends the process, so
everything hangs on where the thread is by then.
-/

namespace RepositoryManager

open ByteString Interaction Interaction.Prog

/-! ## The two threads -/

/-- Where `executeQueryProc` is. -/
inductive QueryProc where
  | popen
  /-- In the loop over `fgets`: what XSB has still to write, and what was read. -/
  | reading (f ss : Str)
  | pclose (ss : Str)
  | setStats
  | exit
  | terminated
  /-- `substr` has thrown, and nobody catches it. -/
  | threw
  deriving DecidableEq

/-- Where `executeQuery` is, once it has started the thread. -/
inductive Waiter where
  | lock
  /-- In the loop over the timer, whose readings add up to `elapsed`. -/
  | waiting (elapsed : Nat)
  | detach
  | kill
  | unlock
  | returned (retVal : Bool)
  deriving DecidableEq

/-- The second that `executeQuery` waits, in nanoseconds. -/
def queryTime : Nat := 1000000000

/-- How many more readings of a running timer the waiting thread can take. -/
def Waiter.remaining : Waiter → Nat
  | .lock => queryTime + 5
  | .waiting elapsed => queryTime - elapsed + 4
  | .detach => 3
  | .kill => 2
  | .unlock => 1
  | .returned _ => 0

structure Threads where
  qStats : Bool
  queryProc : QueryProc
  waiter : Waiter
  /-- Neither a signal nor an exception has ended the process. -/
  alive : Bool
  deriving DecidableEq

/-- The threads when `pthread_create` has returned 0. -/
def Threads.start : Threads :=
  { qStats := false, queryProc := .popen, waiter := .lock, alive := true }

/-- The next step of the query thread; `out` is what XSB writes in the end, if there is a
    pipe. -/
def queryStep (out : Option Str) (s : Threads) : Threads :=
  match s.queryProc with
  | .popen =>
      match out with
      | some text => { s with queryProc := .reading text [] }
      | none => { s with queryProc := .exit }
  | .reading [] ss => { s with queryProc := .pclose ss }
  | .reading (c :: f) ss =>
      let line := fgets (maxLine - 1) (c :: f)
      { s with queryProc := .reading line.2 (ss ++ cstr line.1) }
  | .pclose ss =>
      match lastAnswer ss with
      | some res => { s with queryProc := if res = "yes".toList then .setStats else .exit }
      | none => { s with queryProc := .threw, alive := false }
  | .setStats => { s with qStats := true, queryProc := .exit }
  | .exit => { s with queryProc := .terminated }
  | .terminated => s
  | .threw => s

/-- The next step of the waiting thread, whose timer reads `secs`. -/
def waiterStep (secs : Nat) (s : Threads) : Threads :=
  match s.waiter with
  | .lock => { s with waiter := .waiting 0 }
  | .waiting elapsed =>
      if s.qStats then { s with waiter := .detach }
      else if elapsed + secs < queryTime then { s with waiter := .waiting (elapsed + secs) }
      else { s with waiter := .detach }
  | .detach => { s with waiter := .kill }
  | .kill =>
      if s.queryProc = .terminated then { s with waiter := .unlock } else { s with alive := false }
  | .unlock => { s with waiter := .returned s.qStats }
  | .returned _ => s

/-- Whose turn it is, with the reading of the timer. -/
inductive Move where
  | query
  | wait (secs : Nat)
  deriving DecidableEq

/-- A move of the waiting thread while the timer runs. -/
def Move.ticks : Move → Bool
  | .query => false
  | .wait secs => 0 < secs

def Threads.step (out : Option Str) (s : Threads) (m : Move) : Threads :=
  if s.alive then
    match m with
    | .query => queryStep out s
    | .wait secs => waiterStep secs s
  else s

/-- The threads after a schedule. -/
def Threads.exec (out : Option Str) (s : Threads) (moves : List Move) : Threads :=
  moves.foldl (Threads.step out) s

/-- `executeQuery` has returned, or the process is dead. -/
def Threads.Complete (s : Threads) : Prop := s.alive = false ∨ ∃ b, s.waiter = .returned b

/-- The query thread has terminated when the waiting thread gets to `pthread_kill`. -/
def TerminatedAtKill (out : Option Str) (moves : List Move) : Prop :=
  ∃ before secs after, moves = before ++ .wait secs :: after ∧
    (Threads.start.exec out before).alive = true ∧
    (Threads.start.exec out before).waiter = .kill ∧
    (Threads.start.exec out before).queryProc = .terminated

/-! ## What a step keeps -/

namespace Threads

variable {out : Option Str} {s : Threads}

theorem exec_append (s : Threads) (first second : List Move) :
    s.exec out (first ++ second) = (s.exec out first).exec out second :=
  List.foldl_append

theorem exec_dead (dead : s.alive = false) (moves : List Move) : s.exec out moves = s := by
  induction moves with
  | nil => rfl
  | cons m moves ih =>
      have stays : s.step out m = s := by
        unfold step
        rw [dead]
        rfl
      rw [exec, List.foldl_cons, stays]
      exact ih

/-- What the query thread has made of the output so far. -/
def Follows (out : Option Str) (s : Threads) : Prop :=
  match s.queryProc with
  | .popen => s.qStats = false
  | .reading f ss => s.qStats = false ∧ ∃ text, out = some text ∧ readOutput text = ss ++ readOutput f
  | .pclose ss => s.qStats = false ∧ ∃ text, out = some text ∧ readOutput text = ss
  | .setStats => s.qStats = false ∧ executeQueryProc out = some true
  | .exit => executeQueryProc out = some s.qStats
  | .terminated => executeQueryProc out = some s.qStats
  | .threw => s.alive = false ∧ executeQueryProc out = none

theorem queryStep_follows (follows : Follows out s) : Follows out (queryStep out s) := by
  unfold Follows at follows
  unfold queryStep
  split at follows
  · rename_i at_popen
    cases out with
    | none =>
        simp only [at_popen, Follows, executeQueryProc, follows]
    | some text =>
        simp only [at_popen, Follows, List.nil_append, follows, true_and]
        exact ⟨text, rfl, rfl⟩
  · rename_i f ss at_reading
    obtain ⟨off, text, isText, read⟩ := follows
    cases f with
    | nil =>
        simp only [at_reading, Follows]
        refine ⟨off, text, isText, ?_⟩
        rw [read, readOutput, List.append_nil]
    | cons c f =>
        simp only [at_reading, Follows]
        refine ⟨off, text, isText, ?_⟩
        rw [read, readOutput, List.append_assoc]
  · rename_i ss at_pclose
    obtain ⟨off, text, rfl, rfl⟩ := follows
    cases answer : lastAnswer (readOutput text) with
    | none => simp [at_pclose, answer, Follows, executeQueryProc]
    | some res =>
        by_cases yes : res = "yes".toList
        · simp only [at_pclose, answer, yes, if_true, Follows]
          refine ⟨off, ?_⟩
          rw [executeQueryProc, answer]
          exact congrArg some (decide_eq_true yes)
        · simp only [at_pclose, answer, yes, if_false, Follows, off]
          rw [executeQueryProc, answer]
          exact congrArg some (decide_eq_false yes)
  · rename_i at_set
    simp only [at_set, Follows]
    exact follows.2
  · rename_i at_exit
    simp only [at_exit, Follows]
    exact follows
  · rename_i at_end
    simp only [at_end, Follows]
    exact follows
  · rename_i at_end
    simp only [at_end, Follows]
    exact follows

/-- Beyond the signal the query thread has terminated, and what is returned is its flag. -/
def Knows (s : Threads) : Prop :=
  match s.waiter with
  | .unlock => s.queryProc = .terminated
  | .returned b => s.queryProc = .terminated ∧ b = s.qStats
  | _ => True

theorem waiterStep_query (secs : Nat) (s : Threads) :
    (waiterStep secs s).queryProc = s.queryProc ∧ (waiterStep secs s).qStats = s.qStats := by
  unfold waiterStep
  split
  · exact ⟨rfl, rfl⟩
  · split
    · exact ⟨rfl, rfl⟩
    · split
      · exact ⟨rfl, rfl⟩
      · exact ⟨rfl, rfl⟩
  · exact ⟨rfl, rfl⟩
  · split
    · exact ⟨rfl, rfl⟩
    · exact ⟨rfl, rfl⟩
  · exact ⟨rfl, rfl⟩
  · exact ⟨rfl, rfl⟩

theorem waiterStep_alive (secs : Nat) (alive : s.alive = true) :
    (waiterStep secs s).alive = true ∨
      ((waiterStep secs s).alive = false ∧ s.queryProc ≠ .terminated) := by
  unfold waiterStep
  split
  · exact .inl alive
  · split
    · exact .inl alive
    · split
      · exact .inl alive
      · exact .inl alive
  · exact .inl alive
  · split
    · exact .inl alive
    · rename_i runs
      exact .inr ⟨rfl, runs⟩
  · exact .inl alive
  · exact .inl alive

theorem waiterStep_knows (secs : Nat) (knows : Knows s) : Knows (waiterStep secs s) := by
  unfold Knows at knows
  unfold waiterStep
  split
  · trivial
  · split
    · trivial
    · split
      · trivial
      · trivial
  · trivial
  · rename_i at_kill
    split
    · rename_i ended
      exact ended
    · simp only [Knows, at_kill]
  · rename_i at_unlock
    rw [at_unlock] at knows
    exact ⟨knows, rfl⟩
  · rename_i at_return
    simp only [Knows, at_return]
    rw [at_return] at knows
    exact knows

theorem queryStep_terminated (ended : s.queryProc = .terminated) : queryStep out s = s := by
  unfold queryStep
  rw [ended]

theorem queryStep_waiter (out : Option Str) (s : Threads) : (queryStep out s).waiter = s.waiter := by
  unfold queryStep
  split
  · split
    · rfl
    · rfl
  · rfl
  · rfl
  · split
    · rfl
    · rfl
  · rfl
  · rfl
  · rfl
  · rfl

theorem queryStep_knows (knows : Knows s) : Knows (queryStep out s) := by
  by_cases ended : s.queryProc = .terminated
  · rw [queryStep_terminated ended]
    exact knows
  · unfold Knows at knows ⊢
    rw [queryStep_waiter]
    split at knows
    · exact absurd knows ended
    · exact absurd knows.1 ended
    · trivial

theorem queryStep_alive (out : Option Str) (alive : s.alive = true) :
    (queryStep out s).alive = true ∨
      ((queryStep out s).alive = false ∧ (queryStep out s).queryProc = .threw) := by
  unfold queryStep
  split
  · split
    · exact .inl alive
    · exact .inl alive
  · exact .inl alive
  · exact .inl alive
  · split
    · exact .inl alive
    · exact .inr ⟨rfl, rfl⟩
  · exact .inl alive
  · exact .inl alive
  · exact .inl alive
  · exact .inl alive

/-- The invariant of the two threads. -/
structure Sound (out : Option Str) (s : Threads) : Prop where
  follows : Follows out s
  knows : Knows s
  dead : s.alive = false → s.queryProc ≠ .terminated

theorem start_sound (out : Option Str) : Sound out start :=
  ⟨rfl, trivial, fun dead => absurd dead (by decide)⟩

theorem step_sound (sound : Sound out s) (m : Move) : Sound out (s.step out m) := by
  cases alive : s.alive with
  | false =>
      unfold step
      rw [alive]
      exact sound
  | true =>
      unfold step
      rw [if_pos alive]
      cases m with
      | query =>
          refine ⟨queryStep_follows sound.follows, queryStep_knows sound.knows, fun dead => ?_⟩
          rcases queryStep_alive out alive with lives | ⟨-, threw⟩
          · rw [lives] at dead
            cases dead
          · dsimp only
            rw [threw]
            decide
      | wait secs =>
          obtain ⟨sameProc, sameStats⟩ := waiterStep_query secs s
          refine ⟨?_, waiterStep_knows secs sound.knows, fun dead => ?_⟩
          · have follows := sound.follows
            unfold Follows at follows ⊢
            dsimp only
            rw [sameProc, sameStats]
            split at follows
            · exact follows
            · exact follows
            · exact follows
            · exact follows
            · exact follows
            · exact follows
            · rw [alive] at follows
              exact absurd follows.1 (by decide)
          · rcases waiterStep_alive secs alive with lives | ⟨-, runs⟩
            · rw [lives] at dead
              cases dead
            · dsimp only
              rw [sameProc]
              exact runs

/-- The invariant holds after every schedule. -/
theorem exec_sound (sound : Sound out s) (moves : List Move) : Sound out (s.exec out moves) := by
  induction moves generalizing s with
  | nil => exact sound
  | cons m moves ih => exact ih (step_sound sound m)

/-! ## Where a schedule ends -/

/-- How the query thread has ended for the process that waited for it. -/
def ending (out : Option Str) (s : Threads) : QueryEnd :=
  if s.queryProc = .terminated ∨ s.queryProc = .threw then .finished out else .unfinished

/-- A process that lives has the answer of its query thread, and one that is dead had no
    answer to have. -/
theorem Sound.outcome (sound : Sound out s) (complete : s.Complete) :
    (s.alive = true → ∃ b, s.waiter = .returned b ∧ s.ending out = .finished out ∧
      executeQueryProc out = some b) ∧
    (s.alive = false → s.ending out = .unfinished ∨
      (s.ending out = .finished out ∧ executeQueryProc out = none)) := by
  have follows := sound.follows
  refine ⟨fun lives => ?_, fun dead => ?_⟩
  · rcases complete with dead | ⟨b, returned⟩
    · rw [lives] at dead
      cases dead
    · have knows := sound.knows
      unfold Knows at knows
      rw [returned] at knows
      obtain ⟨ended, rfl⟩ := knows
      unfold Follows at follows
      rw [ended] at follows
      exact ⟨_, returned, if_pos (.inl ended), follows⟩
  · by_cases threw : s.queryProc = .threw
    · unfold Follows at follows
      rw [threw] at follows
      exact .inr ⟨if_pos (.inr threw), follows.2⟩
    · refine .inl (if_neg ?_)
      rintro (ended | ended)
      · exact sound.dead dead ended
      · exact threw ended

theorem step_past (lives : s.alive = true) (ended : s.queryProc = .terminated)
    (past : s.waiter = .unlock ∨ ∃ b, s.waiter = .returned b) (m : Move) :
    (s.step out m).alive = true ∧ (s.step out m).queryProc = .terminated ∧
      ((s.step out m).waiter = .unlock ∨ ∃ b, (s.step out m).waiter = .returned b) := by
  unfold step
  rw [if_pos lives]
  cases m with
  | query =>
      dsimp only
      rw [queryStep_terminated ended]
      exact ⟨lives, ended, past⟩
  | wait secs =>
      rcases past with at_unlock | ⟨b, at_return⟩
      · simp only [waiterStep, at_unlock]
        exact ⟨lives, ended, .inr ⟨_, rfl⟩⟩
      · simp only [waiterStep, at_return]
        exact ⟨lives, ended, .inr ⟨b, rfl⟩⟩

theorem exec_past (lives : s.alive = true) (ended : s.queryProc = .terminated)
    (past : s.waiter = .unlock ∨ ∃ b, s.waiter = .returned b) (moves : List Move) :
    (s.exec out moves).alive = true := by
  induction moves generalizing s with
  | nil => exact lives
  | cons m moves ih =>
      obtain ⟨lives', ended', past'⟩ := step_past lives ended past m
      exact ih lives' ended' past'

theorem terminated_of_past (moves : List Move)
    (past : (start.exec out moves).waiter = .unlock ∨
      ∃ b, (start.exec out moves).waiter = .returned b) :
    TerminatedAtKill out moves := by
  induction moves using List.reverseRecOn with
  | nil => rcases past with at_unlock | ⟨b, at_return⟩ <;> contradiction
  | append_singleton moves m ih =>
      have longer : TerminatedAtKill out moves → TerminatedAtKill out (moves ++ [m]) := by
        rintro ⟨before, secs, after, rfl, state⟩
        exact ⟨before, secs, after ++ [m], by simp, state⟩
      rw [exec_append] at past
      generalize state : start.exec out moves = s at past ih
      have one : s.exec out [m] = s.step out m := rfl
      rw [one] at past
      unfold step at past
      cases lives : s.alive with
      | false =>
          rw [lives] at past
          exact longer (ih past)
      | true =>
          rw [if_pos lives] at past
          cases m with
          | query =>
              dsimp only at past
              rw [queryStep_waiter] at past
              exact longer (ih past)
          | wait secs =>
              dsimp only at past
              cases at_s : s.waiter with
              | lock => simp [waiterStep, at_s] at past
              | waiting elapsed =>
                  simp only [waiterStep, at_s] at past
                  split at past
                  · simp at past
                  · split at past
                    · simp at past
                    · simp at past
              | detach => simp [waiterStep, at_s] at past
              | kill =>
                  simp only [waiterStep, at_s] at past
                  split at past
                  · rename_i ended
                    exact ⟨moves, secs, [], rfl, state ▸ lives, state ▸ at_s, state ▸ ended⟩
                  · simp at past
              | unlock => exact longer (ih (.inl at_s))
              | returned b => exact longer (ih (.inr ⟨b, at_s⟩))

/-- A schedule that is complete leaves the process alive exactly if the query thread has
    terminated by the time of the signal. -/
theorem alive_iff {moves : List Move} (complete : (start.exec out moves).Complete) :
    (start.exec out moves).alive = true ↔ TerminatedAtKill out moves := by
  constructor
  · intro lives
    rcases complete with dead | returned
    · rw [lives] at dead
      cases dead
    · exact terminated_of_past moves (.inr returned)
  · rintro ⟨before, secs, after, rfl, lives, at_kill, ended⟩
    have next : (start.exec out before).step out (.wait secs) =
        { start.exec out before with waiter := .unlock } := by
      unfold step
      rw [if_pos lives]
      simp only [waiterStep, at_kill, ended, if_true]
    rw [exec_append, exec, List.foldl_cons, next]
    exact exec_past (s := { start.exec out before with waiter := .unlock }) lives ended (.inl rfl)
      after

/-! ## Every schedule comes to its end -/

theorem waiterStep_remaining (secs : Nat) (lives : (waiterStep secs s).alive = true) :
    (waiterStep secs s).waiter.remaining ≤ s.waiter.remaining - if 0 < secs then 1 else 0 := by
  cases at_s : s.waiter with
  | lock =>
      simp only [waiterStep, at_s, Waiter.remaining]
      split <;> omega
  | waiting elapsed =>
      cases flag : s.qStats with
      | true =>
          simp only [waiterStep, at_s, flag, if_true, Waiter.remaining]
          split <;> omega
      | false =>
          by_cases within : elapsed + secs < queryTime
          · simp only [waiterStep, at_s, flag, Bool.false_eq_true, within, if_true, if_false,
              Waiter.remaining]
            split <;> omega
          · simp only [waiterStep, at_s, flag, Bool.false_eq_true, within, if_false, Waiter.remaining]
            split <;> omega
  | detach =>
      simp only [waiterStep, at_s, Waiter.remaining]
      split <;> omega
  | kill =>
      by_cases ended : s.queryProc = .terminated
      · simp only [waiterStep, at_s, ended, if_true, Waiter.remaining]
        split <;> omega
      · simp [waiterStep, at_s, ended] at lives
  | unlock =>
      simp only [waiterStep, at_s, Waiter.remaining]
      split <;> omega
  | returned b =>
      simp only [waiterStep, at_s, Waiter.remaining]
      omega

theorem exec_complete (moves : List Move)
    (enough : s.waiter.remaining ≤ moves.countP Move.ticks) : (s.exec out moves).Complete := by
  induction moves generalizing s with
  | nil =>
      have none : s.waiter.remaining = 0 := Nat.le_zero.mp enough
      cases at_s : s.waiter with
      | returned b => exact .inr ⟨b, at_s⟩
      | _ => simp [at_s, Waiter.remaining] at none
  | cons m moves ih =>
      cases lives : s.alive with
      | false =>
          rw [exec_dead lives]
          exact .inl lives
      | true =>
          change ((s.step out m).exec out moves).Complete
          cases lives' : (s.step out m).alive with
          | false =>
              rw [exec_dead lives']
              exact .inl lives'
          | true =>
              apply ih
              unfold step at lives' ⊢
              rw [if_pos lives] at lives' ⊢
              cases m with
              | query =>
                  dsimp only
                  rw [queryStep_waiter]
                  exact enough
              | wait secs =>
                  dsimp only at lives' ⊢
                  have nearer := waiterStep_remaining secs lives'
                  have counted : (Move.wait secs :: moves).countP Move.ticks =
                      moves.countP Move.ticks + if 0 < secs then 1 else 0 := by
                    simp [List.countP_cons, Move.ticks]
                  omega

end Threads

/-! ## Requests -/

/-- What becomes of the thread of a query: it cannot be created, or it runs under a
    schedule with the waiting thread. -/
inductive Course where
  | noThread
  | started (out : Option Str) (moves : List Move)

namespace Course

def Complete : Course → Prop
  | .noThread => True
  | .started out moves => (Threads.start.exec out moves).Complete

/-- The waiting thread reads the running timer often enough to come to its end, by however
    little the readings differ. -/
def Timed : Course → Prop
  | .noThread => True
  | .started _ moves => Threads.start.waiter.remaining ≤ moves.countP Move.ticks

theorem Timed.complete {course : Course} (timed : course.Timed) : course.Complete := by
  cases course with
  | noThread => trivial
  | started out moves => exact Threads.exec_complete moves timed

/-- The end of the query as the session sees it. -/
def ending : Course → QueryEnd
  | .noThread => .noThread
  | .started out moves => (Threads.start.exec out moves).ending out

/-- No signal finds the query thread running. -/
def Harmless : Course → Prop
  | .noThread => True
  | .started out moves => TerminatedAtKill out moves

/-- The query has answered yes in time. -/
def SaysYes : Course → Prop
  | .noThread => False
  | .started out moves => TerminatedAtKill out moves ∧ executeQueryProc out = some true

theorem returns_iff {course : Course} (complete : course.Complete) (b : Bool) :
    ((course.ending = .noThread ∧ b = false) ∨
      ∃ out, course.ending = .finished out ∧ executeQueryProc out = some b) ↔
    course.Harmless ∧ (b = true ↔ course.SaysYes) := by
  cases course with
  | noThread =>
      cases b with
      | false => simp [ending, Harmless, SaysYes]
      | true => simp [ending, Harmless, SaysYes]
  | started out moves =>
      have sound := Threads.exec_sound (Threads.start_sound out) moves
      obtain ⟨lives, dead⟩ := sound.outcome complete
      have inTime := Threads.alive_iff complete
      cases alive : (Threads.start.exec out moves).alive with
      | true =>
          obtain ⟨b', -, ends, decision⟩ := lives alive
          have harmless := inTime.mp alive
          have noThread : (Threads.start.exec out moves).ending out ≠ .noThread := by
            rw [ends]
            exact QueryEnd.noConfusion
          simp only [ending, ends, Harmless, harmless, SaysYes, true_and, QueryEnd.finished.injEq,
            exists_eq_left', decision, Option.some.injEq, reduceCtorEq, false_and, false_or]
          cases b <;> cases b' <;> simp
      | false =>
          have notHarmless : ¬ TerminatedAtKill out moves := by
            intro harmless
            rw [inTime.mpr harmless] at alive
            cases alive
          rcases dead alive with ends | ⟨ends, noDecision⟩
          · simp [ending, ends, Harmless, notHarmless]
          · simp [ending, ends, Harmless, notHarmless, noDecision]

end Course

/-- What a session does for a query, up to its one reply; an empty query is not executed. -/
def replyHistory (fd : Int) (query : Str) (loaded : Option Str) (ending : QueryEnd) (b : Bool)
    (n : Int) : History :=
  (if query = [] then []
    else [⟨.popen (cstr (queryCommand query)), (loaded, ending)⟩, ⟨.note (.executed query b), ()⟩]) ++
  [⟨.write fd (replyMsg (if b then grantS else denyS)), n⟩]

/-- The request gets one reply, `granted` if the query has answered yes in time and `denied`
    if not, and the session goes on. -/
def AnsweredOnce (im : TransportService) (reads : History) (query : Str) (course : Course) : Prop :=
  ∃ b, (b = true ↔ query ≠ [] ∧ course.SaysYes) ∧ ∀ loaded n,
    Returns (processRequest im)
      (reads ++ replyHistory im.clientSocketId query loaded course.ending b n) (true, im)

section Requests

variable {im : TransportService} {reads : History} {request query : Str}

theorem returns_received
    (received : Returns (receive im.clientSocketId endClientRequestS []) reads request)
    {h : History} {result : Bool × TransportService} :
    Returns (processRequest im) (reads ++ h) result ↔
      Returns (handleRequest im request) h result := by
  constructor
  · intro run
    have after := (received.bind (handleRequest im)).resume run
    rwa [ret_bind] at after
  · intro run
    exact returns_bind.mpr ⟨request, reads, h, rfl, received, run⟩

theorem returns_answered
    (received : Returns (receive im.clientSocketId endClientRequestS []) reads request)
    (isOpen : Open im request) (generated : generateQuery im.ss.credPtr request = some query)
    (h : History) :
    Returns (processRequest im) (reads ++ h) (true, im) ↔ Returns (answerQuery im query) h () := by
  have rest : handleRequest im request = answerQuery im query >>= fun _ => .ret (true, im) := by
    rw [handleRequest_open isOpen, answerRequest, generated]
  rw [returns_received received, rest]
  constructor
  · intro run
    obtain ⟨_, h₁, h₂, rfl, answered, last⟩ := returns_bind.mp run
    obtain ⟨rfl, -⟩ := returns_ret.mp last
    rw [List.append_nil]
    exact answered
  · intro answered
    exact returns_bind.mpr ⟨(), h, [], (List.append_nil h).symm, answered, .refl _⟩

theorem grant_ne_deny : replyMsg (if true then grantS else denyS) ≠ replyMsg denyS := by
  decide +kernel

theorem returns_replyHistory (im : TransportService) (query : Str) (loaded : Option Str)
    (ending : QueryEnd) (b : Bool) (n : Int) :
    Returns (answerQuery im query) (replyHistory im.clientSocketId query loaded ending b n) () ↔
      (query = [] ∧ b = false) ∨ (query ≠ [] ∧ ((ending = .noThread ∧ b = false) ∨
        ∃ out, ending = .finished out ∧ executeQueryProc out = some b)) := by
  by_cases empty : query = []
  · subst empty
    have denies : answerQuery im [] = .call (.write im.clientSocketId (replyMsg denyS)) fun _ =>
        .ret () := rfl
    simp only [replyHistory, if_true, List.nil_append, denies, true_and, not_true_eq_false,
      ne_eq, false_and, or_false]
    constructor
    · intro run
      obtain ⟨_, _, same, -⟩ := returns_call.mp run
      cases b with
      | false => rfl
      | true =>
          have written := (Call.write.inj (Sigma.mk.inj (List.cons.inj same).1).1).2
          exact absurd written grant_ne_deny
    · rintro rfl
      exact .call (.refl _)
  · simp only [replyHistory, empty, if_false, answerQuery_eq im empty, false_and, false_or, ne_eq,
      not_false_eq_true, true_and]
    constructor
    · intro run
      obtain ⟨b', h₁, h₂, cut, executed, rest⟩ := returns_bind.mp run
      obtain ⟨loaded', ending', rfl, decided⟩ := (returns_executeQuery empty).mp executed
      obtain ⟨_, _, rfl, _⟩ := returns_call.mp rest
      cases cut
      exact decided
    · intro decided
      exact returns_bind.mpr ⟨b, [_], _, rfl,
        (returns_executeQuery empty).mpr ⟨loaded, ending, rfl, decided⟩, .call (.call (.refl _))⟩

theorem answered_iff_harmless
    (received : Returns (receive im.clientSocketId endClientRequestS []) reads request)
    (isOpen : Open im request) (generated : generateQuery im.ss.credPtr request = some query)
    {course : Course} (complete : course.Complete) :
    AnsweredOnce im reads query course ↔ query = [] ∨ course.Harmless := by
  simp only [AnsweredOnce, returns_answered received isOpen generated, returns_replyHistory]
  constructor
  · rintro ⟨b, -, answers⟩
    rcases answers none 1 with ⟨empty, -⟩ | ⟨-, decided⟩
    · exact .inl empty
    · exact .inr ((Course.returns_iff complete b).mp decided).1
  · intro safe
    by_cases empty : query = []
    · exact ⟨false, by simp [empty], fun _ _ => .inl ⟨empty, rfl⟩⟩
    · have harmless := safe.resolve_left empty
      by_cases yes : course.SaysYes
      · exact ⟨true, by simp [empty, yes], fun _ _ => .inr ⟨empty,
          (Course.returns_iff complete true).mpr ⟨harmless, by simp [yes]⟩⟩⟩
      · exact ⟨false, by simp [yes], fun _ _ => .inr ⟨empty,
          (Course.returns_iff complete false).mpr ⟨harmless, by simp [yes]⟩⟩⟩

/-- Where the timer is read often enough, the waiting thread returns or the process is dead;
    and then a request is answered once exactly if its query is empty, or no signal finds the
    query thread running. -/
theorem answeredOnce_iff
    (received : Returns (receive im.clientSocketId endClientRequestS []) reads request)
    (isOpen : Open im request) (generated : generateQuery im.ss.credPtr request = some query)
    (course : Course) :
    (course.Timed → course.Complete) ∧
    (course.Complete →
      (AnsweredOnce im reads query course ↔ query = [] ∨ course.Harmless)) :=
  ⟨Course.Timed.complete, answered_iff_harmless received isOpen generated⟩

end Requests

/-! ## A yes that is killed -/

theorem Threads.reads_all {out : Option Str} (f ss : Str) (s : Threads) (lives : s.alive = true)
    (at_f : s.queryProc = .reading f ss) :
    ∃ moves, s.exec out moves = { s with queryProc := .pclose (ss ++ readOutput f) } := by
  induction f using readOutput.induct generalizing ss s with
  | case1 =>
      refine ⟨[.query], ?_⟩
      simp [exec, step, lives, queryStep, at_f, readOutput]
  | case2 c f line ih =>
      have next : s.step out .query =
          { s with queryProc := .reading line.2 (ss ++ cstr line.1) } := by
        simp [step, lives, queryStep, at_f, line]
      obtain ⟨moves, reaches⟩ := ih _ (s.step out .query) (by rw [next]; exact lives) (by rw [next])
      refine ⟨.query :: moves, ?_⟩
      rw [exec, List.foldl_cons]
      refine reaches.trans ?_
      rw [next, readOutput, List.append_assoc]

/-- Every query that answers yes has a schedule in which the waiting thread sees the flag and
    still kills the process: the query thread has its end before it. -/
theorem Threads.yes_killed {out : Option Str} (yes : executeQueryProc out = some true) :
    ∃ moves, (start.exec out moves).qStats = true ∧ (start.exec out moves).alive = false := by
  cases out with
  | none => cases yes
  | some text =>
      have opened : start.exec (some text) [.query] = { start with queryProc := .reading text [] } :=
        rfl
      obtain ⟨moves, reaches⟩ := @reads_all (some text) text []
        { start with queryProc := .reading text [] } rfl rfl
      obtain ⟨res, answer, isYes⟩ := Option.map_eq_some_iff.mp yes
      have isYes : res = "yes".toList := of_decide_eq_true isYes
      refine ⟨[.query] ++ moves ++ [.query, .query, .wait 0, .wait 0, .wait 0, .wait 0], ?_⟩
      rw [exec_append, exec_append, opened, reaches, List.nil_append]
      simp [exec, step, queryStep, answer, isYes, waiterStep, start]

/-! ## The request of alice -/

/-- XSB has not written anything when the second is over. -/
def tooSlow : Course :=
  .started (some ['y', 'e', 's', '\n']) [.query, .wait 0, .wait queryTime, .wait 0, .wait 0]

/-- XSB answers, and the query thread ends, while the waiting thread is still in its loop. -/
def inTime : Course :=
  .started (some []) ([.query, .query, .query, .query] ++
    [.wait 0, .wait queryTime, .wait 0, .wait 0, .wait 0])

theorem unfinished_query_unanswered :
    tooSlow.Complete ∧ ¬ AnsweredOnce (userAdmission alice_known 4).image (oneRead 4 readRequest)
      (readQuery alice) tooSlow := by
  refine ⟨.inl (by decide), ?_⟩
  rintro ⟨b, -, answers⟩
  have clean : nul ∉ readRequest := by decide +kernel
  have answered := (@returns_answered (userAdmission alice_known 4).image _ _ _
    (receive_oneRead 4 clean (by decide +kernel)) ⟨rfl, by decide +kernel, by decide +kernel⟩
    alice_generates _).mp (answers none 1)
  have unfinished : tooSlow.ending = .unfinished := by decide
  rcases returns_replyHistory _ _ _ _ _ _ |>.mp answered with ⟨empty, -⟩ | ⟨-, decided⟩
  · exact absurd empty (List.append_ne_nil_of_right_ne_nil _ (by decide +kernel))
  · rw [unfinished] at decided
    simp at decided

theorem answeredOnce_iff_alice :
    inTime.Complete ∧ (AnsweredOnce (userAdmission alice_known 4).image (oneRead 4 readRequest)
      (readQuery alice) inTime ↔ readQuery alice = [] ∨ inTime.Harmless) := by
  have complete : inTime.Complete := .inr ⟨false, by decide⟩
  have clean : nul ∉ readRequest := by decide +kernel
  exact ⟨complete, (answeredOnce_iff (receive_oneRead 4 clean (by decide +kernel))
    ⟨rfl, by decide +kernel, by decide +kernel⟩ alice_generates inTime).2 complete⟩

end RepositoryManager
