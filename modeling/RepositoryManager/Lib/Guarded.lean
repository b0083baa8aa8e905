import Mathlib.Algebra.BigOperators.Ring.Finset
import Mathlib.Algebra.Order.BigOperators.Group.Finset
import Mathlib.Logic.Function.Basic

/-! # Objects behind a lock

Threads call the methods of an object that they share. A method takes the lock, works on the
object and releases the lock; before it takes the lock, it may look at the object and answer
from what it sees. The log has the calls in the order in which they took effect: an early
answer when it was given, any other call when it worked on the object.

The log is a history of the object alone, one call after the other, and each thread's part of
it is what the thread's program has called so far.
-/

namespace Guarded

/-- The methods of a shared object. -/
structure Object (S Call Result : Type) where
  /-- What a call answers without the lock, if it does. -/
  early : S → Call → Option Result
  /-- What a call does to the object in the lock, and what it answers. -/
  work : S → Call → S → Result → Prop

/-- Where a thread is. -/
inductive Place (Call : Type) where
  | idle
  | waiting (call : Call)
  | inside (call : Call)
  | leaving

/-- A thread, with the calls that it has not begun. -/
structure Thread (Call : Type) where
  todo : List Call
  place : Place Call

/-- A call that took effect. -/
structure Entry (Tid Call Result : Type) where
  thread : Tid
  call : Call
  result : Result

/-- The object, the threads, who has the lock, and the calls that took effect. -/
structure State (Tid S Call Result : Type) where
  object : S
  threads : Tid → Thread Call
  holder : Option Tid
  log : List (Entry Tid Call Result)

variable {Tid S Call Result : Type}

namespace Place

/-- The call that a thread has begun and that has had no effect yet. -/
def pending : Place Call → List Call
  | .waiting call => [call]
  | .inside call => [call]
  | _ => []

/-- Whether a thread has the lock. -/
def locked : Place Call → Bool
  | .inside _ => true
  | .leaving => true
  | _ => false

/-- The steps that are left of a call. -/
def remaining : Place Call → Nat
  | .idle => 0
  | .waiting _ => 3
  | .inside _ => 2
  | .leaving => 1

end Place

/-- A bound for the steps of a thread. -/
def Thread.bound (t : Thread Call) : Nat := 4 * t.todo.length + t.place.remaining

namespace State

/-- All threads are before their programs. -/
def start (object : S) (programs : Tid → List Call) : State Tid S Call Result :=
  { object, threads := fun i => ⟨programs i, .idle⟩, holder := none, log := [] }

/-- The calls of a thread that took effect. -/
def doneBy [DecidableEq Tid] (s : State Tid S Call Result) (i : Tid) : List Call :=
  (s.log.filter (·.thread = i)).map Entry.call

/-- All calls of all threads have returned. -/
def Finished (s : State Tid S Call Result) : Prop := ∀ i, s.threads i = ⟨[], .idle⟩

/-- A thread is in the lock with a call that has no outcome. -/
def Faults (obj : Object S Call Result) (s : State Tid S Call Result) : Prop :=
  ∃ i todo call, s.threads i = ⟨todo, .inside call⟩ ∧
    ∀ object result, ¬ obj.work s.object call object result

variable [DecidableEq Tid]

/-- A thread goes on. -/
def move (s : State Tid S Call Result) (i : Tid) (t : Thread Call) : State Tid S Call Result :=
  { s with threads := Function.update s.threads i t }

@[simp] theorem move_self (s : State Tid S Call Result) (i : Tid) (t : Thread Call) :
    (s.move i t).threads i = t := by simp [move]

@[simp] theorem move_other {s : State Tid S Call Result} {i j : Tid} {t : Thread Call}
    (other : j ≠ i) : (s.move i t).threads j = s.threads j := by
  simp [move, other]

end State

variable [DecidableEq Tid]

/-- What one thread does next. -/
inductive Step (obj : Object S Call Result) :
    State Tid S Call Result → State Tid S Call Result → Prop
  | answer {s i call todo result} :
    s.threads i = ⟨call :: todo, .idle⟩ → obj.early s.object call = some result →
      Step obj s { s.move i ⟨todo, .idle⟩ with log := s.log ++ [⟨i, call, result⟩] }
  | enter {s i call todo} :
    s.threads i = ⟨call :: todo, .idle⟩ → obj.early s.object call = none →
      Step obj s (s.move i ⟨todo, .waiting call⟩)
  | lock {s i call todo} :
    s.threads i = ⟨todo, .waiting call⟩ → s.holder = none →
      Step obj s { s.move i ⟨todo, .inside call⟩ with holder := some i }
  | work {s i call todo object result} :
    s.threads i = ⟨todo, .inside call⟩ → obj.work s.object call object result →
      Step obj s { s.move i ⟨todo, .leaving⟩ with
        object, log := s.log ++ [⟨i, call, result⟩] }
  | unlock {s i todo} :
    s.threads i = ⟨todo, .leaving⟩ →
      Step obj s { s.move i ⟨todo, .idle⟩ with holder := none }

/-- A number of steps. -/
inductive Run (obj : Object S Call Result) :
    Nat → State Tid S Call Result → State Tid S Call Result → Prop
  | nil {s} : Run obj 0 s s
  | snoc {n s t u} : Run obj n s t → Step obj t u → Run obj (n + 1) s u

variable {obj : Object S Call Result} {n : Nat} {s t : State Tid S Call Result}

theorem Run.invariant {I : State Tid S Call Result → Prop} (run : Run obj n s t) (first : I s)
    (kept : ∀ s t, I s → Step obj s t → I t) : I t := by
  induction run with
  | nil => exact first
  | snoc _ step ih => exact kept _ _ (ih first) step

theorem Run.call {first : State Tid S Call Result} (run : Run obj n first s) {i : Tid} {call : Call}
    {todo : List Call} (here : s.threads i = ⟨call :: todo, .idle⟩)
    (early : obj.early s.object call = none) (free : s.holder = none) {object : S} {result : Result}
    (works : obj.work s.object call object result) :
    Run obj (n + 4) first
      { object, threads := Function.update s.threads i ⟨todo, .idle⟩, holder := none,
        log := s.log ++ [⟨i, call, result⟩] } := by
  have run := run.snoc (.enter here early)
  have run := run.snoc (.lock (State.move_self _ i _) free)
  have run := run.snoc (.work (State.move_self _ i _) works)
  have run := run.snoc (.unlock (State.move_self _ i _))
  simpa [State.move] using run

theorem Step.moves (step : Step obj s t) :
    ∃ i, (∀ j, j ≠ i → t.threads j = s.threads j) ∧ (t.threads i).bound < (s.threads i).bound := by
  cases step with
  | @answer i _ _ _ here _ =>
      refine ⟨i, fun j other => State.move_other other, ?_⟩
      simp [State.move, here, Thread.bound]
  | @enter i _ _ here _ =>
      refine ⟨i, fun j other => State.move_other other, ?_⟩
      simp [here, Thread.bound, Place.remaining]
      omega
  | @lock i _ _ here _ =>
      refine ⟨i, fun j other => State.move_other other, ?_⟩
      simp [State.move, here, Thread.bound, Place.remaining]
  | @work i _ _ _ _ here _ =>
      refine ⟨i, fun j other => State.move_other other, ?_⟩
      simp [State.move, here, Thread.bound, Place.remaining]
  | @unlock i _ here =>
      refine ⟨i, fun j other => State.move_other other, ?_⟩
      simp [State.move, here, Thread.bound, Place.remaining]

/-! ## The lock -/

/-- The threads in the lock are the one that has it. -/
def Exclusive (s : State Tid S Call Result) : Prop :=
  ∀ i, (s.threads i).place.locked = true ↔ s.holder = some i

omit [DecidableEq Tid] in
theorem exclusive_start (object : S) (programs : Tid → List Call) :
    Exclusive (.start object programs : State Tid S Call Result) := by
  intro i
  simp [State.start, Place.locked]

theorem Exclusive.outside {i : Tid} {old new : Thread Call} (exclusive : Exclusive s)
    (here : s.threads i = old) (same : old.place.locked = new.place.locked) :
    Exclusive (s.move i new) := by
  intro j
  by_cases own : j = i
  · subst own
    rw [State.move_self, ← same, ← here]
    exact exclusive j
  · rw [State.move_other own]
    exact exclusive j

theorem Step.exclusive (exclusive : Exclusive s) (step : Step obj s t) : Exclusive t := by
  cases step with
  | answer here _ => exact exclusive.outside here rfl
  | enter here _ => exact exclusive.outside here rfl
  | @lock i _ _ here free =>
      intro j
      by_cases own : j = i
      · subst own
        simp [State.move, Place.locked]
      · have out := exclusive j
        rw [free] at out
        simp only [State.move, Function.update_of_ne own, out, Option.some.injEq]
        exact iff_of_false nofun (Ne.symm own)
  | work here _ => exact exclusive.outside here rfl
  | @unlock i _ here =>
      have own := (exclusive i).mp (by rw [here]; rfl)
      intro j
      by_cases same : j = i
      · subst same
        simp [State.move, Place.locked]
      · have out := exclusive j
        rw [own] at out
        simp only [State.move, Function.update_of_ne same, out, Option.some.injEq]
        exact iff_of_false (Ne.symm same) nofun

theorem Run.exclusive {object : S} {programs : Tid → List Call}
    (run : Run obj n (.start object programs) s) : Exclusive s :=
  run.invariant (exclusive_start object programs) fun _ _ exclusive step => step.exclusive exclusive

omit [DecidableEq Tid] in
theorem Exclusive.alone {i j : Tid} (exclusive : Exclusive s)
    (first : (s.threads i).place.locked = true) (second : (s.threads j).place.locked = true) :
    i = j := by
  have same := ((exclusive i).mp first).symm.trans ((exclusive j).mp second)
  exact Option.some.inj same

/-! ## The programs -/

/-- What each thread has called, is calling and has to call is its program. -/
def Kept (programs : Tid → List Call) (s : State Tid S Call Result) : Prop :=
  ∀ i, s.doneBy i ++ (s.threads i).place.pending ++ (s.threads i).todo = programs i

theorem doneBy_self {i : Tid} {call : Call} {result : Result} {t : State Tid S Call Result}
    (logged : t.log = s.log ++ [⟨i, call, result⟩]) : t.doneBy i = s.doneBy i ++ [call] := by
  simp [State.doneBy, logged]

theorem doneBy_other {i j : Tid} {call : Call} {result : Result} {t : State Tid S Call Result}
    (logged : t.log = s.log ++ [⟨i, call, result⟩]) (other : j ≠ i) : t.doneBy j = s.doneBy j := by
  simp [State.doneBy, logged, other.symm]

theorem Kept.moves {programs : Tid → List Call} {i : Tid} (kept : Kept programs s)
    (others : ∀ j, j ≠ i → t.threads j = s.threads j ∧ t.doneBy j = s.doneBy j)
    (own : t.doneBy i ++ (t.threads i).place.pending ++ (t.threads i).todo =
      s.doneBy i ++ (s.threads i).place.pending ++ (s.threads i).todo) : Kept programs t := by
  intro j
  by_cases same : j = i
  · subst same
    rw [own, kept]
  · obtain ⟨still, logged⟩ := others j same
    rw [still, logged, kept]

theorem Step.kept {programs : Tid → List Call} (kept : Kept programs s) (step : Step obj s t) :
    Kept programs t := by
  cases step with
  | @answer i _ _ _ here _ =>
      refine kept.moves (i := i) (fun j other => ⟨State.move_other other, doneBy_other rfl other⟩) ?_
      rw [doneBy_self rfl, here]
      simp [State.move, Place.pending]
  | @enter i _ _ here _ =>
      refine kept.moves (i := i) (fun j other => ⟨State.move_other other, rfl⟩) ?_
      rw [State.move_self, here]
      simp [State.move, State.doneBy, Place.pending]
  | @lock i _ _ here _ =>
      refine kept.moves (i := i) (fun j other => ⟨State.move_other other, rfl⟩) ?_
      rw [here]
      simp [State.move, State.doneBy, Place.pending]
  | @work i _ _ _ _ here _ =>
      refine kept.moves (i := i) (fun j other => ⟨State.move_other other, doneBy_other rfl other⟩) ?_
      rw [doneBy_self rfl, here]
      simp [State.move, Place.pending]
  | @unlock i _ here =>
      refine kept.moves (i := i) (fun j other => ⟨State.move_other other, rfl⟩) ?_
      rw [here]
      simp [State.move, State.doneBy, Place.pending]

theorem Run.kept {object : S} {programs : Tid → List Call}
    (run : Run obj n (.start object programs) s) : Kept programs s := by
  refine run.invariant (fun i => ?_) fun _ _ kept step => step.kept kept
  simp [State.start, State.doneBy, Place.pending]

/-! ## The history -/

/-- The calls on the object, one after the other. -/
inductive Serial (obj : Object S Call Result) (start : S) :
    List (Entry Tid Call Result) → S → Prop
  | nil : Serial obj start [] start
  | answer {log object i call result} :
    Serial obj start log object → obj.early object call = some result →
      Serial obj start (log ++ [⟨i, call, result⟩]) object
  | work {log object object' i call result} :
    Serial obj start log object → obj.work object call object' result →
      Serial obj start (log ++ [⟨i, call, result⟩]) object'

theorem Step.serial {start : S} (serial : Serial obj start s.log s.object) (step : Step obj s t) :
    Serial obj start t.log t.object := by
  cases step with
  | answer _ early => exact .answer serial early
  | enter _ _ => exact serial
  | lock _ _ => exact serial
  | work _ outcome => exact .work serial outcome
  | unlock _ => exact serial

/-- The log is what the object alone could do, one call after the other. -/
theorem Run.serial {object : S} {programs : Tid → List Call}
    (run : Run obj n (.start object programs) s) : Serial obj object s.log s.object :=
  run.invariant (I := fun s => Serial obj object s.log s.object) .nil
    fun _ _ serial step => step.serial serial

theorem Run.log_prefix (run : Run obj n s t) : s.log <+: t.log := by
  refine run.invariant (I := fun t => s.log <+: t.log) (List.prefix_refl _) fun _ _ before step => ?_
  cases step with
  | answer _ _ => exact before.trans (List.prefix_append _ _)
  | enter _ _ => exact before
  | lock _ _ => exact before
  | work _ _ => exact before.trans (List.prefix_append _ _)
  | unlock _ => exact before

/-! ## Progress -/

/-- Unless all calls have returned, a thread can go on, or one has a call without outcome. -/
theorem Exclusive.progress (obj : Object S Call Result) (exclusive : Exclusive s) :
    (∃ t, Step obj s t) ∨ s.Finished ∨ s.Faults obj := by
  by_cases finished : s.Finished
  · exact .inr (.inl finished)
  obtain ⟨i, unfinished⟩ := not_forall.mp finished
  by_cases anyone : ∃ j, (s.threads j).place.locked = true
  · obtain ⟨j, locked⟩ := anyone
    cases isThread : s.threads j with
    | mk todo place =>
        rw [isThread] at locked
        cases place with
        | idle => cases locked
        | waiting call => cases locked
        | inside call =>
            by_cases outcome : ∃ object result, obj.work s.object call object result
            · obtain ⟨object, result, works⟩ := outcome
              exact .inl ⟨_, .work isThread works⟩
            · refine .inr (.inr ⟨j, todo, call, isThread, fun object result works => ?_⟩)
              exact outcome ⟨object, result, works⟩
        | leaving => exact .inl ⟨_, .unlock isThread⟩
  · have free : s.holder = none := by
      cases holder : s.holder with
      | none => rfl
      | some j => exact absurd ⟨j, (exclusive j).mpr holder⟩ anyone
    cases isThread : s.threads i with
    | mk todo place =>
        cases place with
        | idle =>
            cases todo with
            | nil => exact absurd isThread unfinished
            | cons call todo =>
                cases early : obj.early s.object call with
                | none => exact .inl ⟨_, .enter isThread early⟩
                | some result => exact .inl ⟨_, .answer isThread early⟩
        | waiting call => exact .inl ⟨_, .lock isThread free⟩
        | inside call => exact absurd ⟨i, by rw [isThread]; rfl⟩ anyone
        | leaving => exact absurd ⟨i, by rw [isThread]; rfl⟩ anyone

/-- A bound for the steps of all threads. -/
def State.bound [Fintype Tid] (s : State Tid S Call Result) : Nat := ∑ i, (s.threads i).bound

theorem Step.bound_lt [Fintype Tid] (step : Step obj s t) : t.bound < s.bound := by
  obtain ⟨i, others, less⟩ := step.moves
  refine Finset.sum_lt_sum (fun j _ => ?_) ⟨i, Finset.mem_univ i, less⟩
  by_cases own : j = i
  · rw [own]
    exact Nat.le_of_lt less
  · rw [others j own]

theorem Run.length_le [Fintype Tid] {object : S} {programs : Tid → List Call}
    (run : Run obj n (.start object programs) s) : n ≤ 4 * ∑ i, (programs i).length := by
  have whole : (State.start object programs : State Tid S Call Result).bound =
      4 * ∑ i, (programs i).length := by
    simp [State.bound, State.start, Thread.bound, Place.remaining, Finset.mul_sum]
  have spent : n + s.bound ≤ (State.start object programs : State Tid S Call Result).bound := by
    generalize State.start object programs = first at run
    induction run with
    | nil => exact Nat.le_of_eq (Nat.zero_add _)
    | snoc _ step ih =>
        have less := step.bound_lt
        omega
  omega

end Guarded
