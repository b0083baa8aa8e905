import RepositoryManager.FifoQueue
import RepositoryManager.Lib.Guarded

/-! # The queue between threads

`enqueue` has its whole body in the lock. `dequeue` tests `head` before it takes the lock, and in
the lock it reads `head->data` without another test. Each body writes `head` once, so what a
test finds while another thread is in the lock is what it finds before or after that thread's
work.
-/

namespace RepositoryManager

open Guarded

namespace Fifo

variable {Object : Type}

theorem serve_append (calls more : List (QueueCall Object)) (stored : List Object) :
    serve (calls ++ more) stored =
      ((serve calls stored).1 ++ (serve more (serve calls stored).2).1,
        (serve more (serve calls stored).2).2) := by
  induction calls generalizing stored with
  | nil => rfl
  | cons call calls ih =>
      cases call with
      | enqueue o => exact ih (stored ++ [o])
      | dequeue =>
          cases stored with
          | nil => simp only [List.cons_append, serve, ih]
          | cons v stored => simp only [List.cons_append, serve, ih]

end Fifo

namespace Queue

variable {Addr Object : Type} [DecidableEq Addr]

/-- The part of `dequeue` in the lock. -/
def dequeueLocked (q : Queue Addr Object) : Option (Object × Queue Addr Object) := do
  let qsize := toInt (q.qsize - 1)
  let a ← q.head
  let node ← q.heap.lookup a
  let current := node.next
  let heap := q.heap.erase a
  if current = none then
    return (node.data, { heap, qsize, head := none, tail := none, current := none })
  else return (node.data, { heap, qsize, head := current, tail := q.tail, current })

theorem dequeue_eq (null : Object) (q : Queue Addr Object) :
    q.dequeue null = if q.head = none then some (null, q) else q.dequeueLocked := by
  cases first : q.head with
  | none => simp only [dequeue, first, if_true]
  | some a => simp [dequeue, dequeueLocked, first]

theorem dequeueLocked_empty {q : Queue Addr Object} (noHead : q.head = none) :
    q.dequeueLocked = none := by
  simp [dequeueLocked, noHead]

theorem dequeueLocked_shape {q : Queue Addr Object} {a : Addr} {v : Object}
    {cells : List (Addr × Object)} (shape : q.Shape ((a, v) :: cells)) :
    ∃ q', q.dequeueLocked = some (v, q') ∧ q'.Shape cells ∧ q'.qsize = toInt (q.qsize - 1) := by
  obtain ⟨q', dequeued, rest⟩ := dequeue_shape v shape
  have notNull : q.head ≠ none := fun null => by simpa using shape.chain.null_iff.mp null
  rw [dequeue_eq, if_neg notNull] at dequeued
  exact ⟨q', dequeued, rest⟩

theorem enqueue_head {q q' : Queue Addr Object} {a : Addr} {o : Object}
    (enqueued : q.enqueue a o = some q') : q'.head ≠ none := by
  rw [enqueue] at enqueued
  split at enqueued
  · simp only [Option.bind_eq_bind, Option.bind_eq_some_iff, Option.pure_def,
      Option.some.injEq] at enqueued
    obtain ⟨_, _, rfl⟩ := enqueued
    exact Option.some_ne_none a
  · next notNull =>
      simp only [Option.bind_eq_bind, Option.bind_eq_some_iff, Option.pure_def,
        Option.some.injEq] at enqueued
      obtain ⟨_, _, _, _, _, _, rfl⟩ := enqueued
      exact notNull

end Queue

namespace SharedQueue

variable {Tid Addr Object : Type} [DecidableEq Addr]

/-- `enqueue` and `dequeue`, with what they return. -/
def methods (null : Object) :
    Guarded.Object (Queue Addr Object) (QueueCall Object) (Option Object) where
  early q
    | .enqueue _ => none
    | .dequeue => if q.head = none then some (some null) else none
  work q
    | .enqueue o, q', result => result = none ∧ ∃ a, a ∉ q.heap ∧ q.enqueue a o = some q'
    | .dequeue, q', result => ∃ o, result = some o ∧ q.dequeueLocked = some (o, q')

/-- What the calls of a log do to a list. -/
def served (log : List (Entry Tid (QueueCall Object) (Option Object))) :
    List (Option Object) × List Object := Fifo.serve (log.map Entry.call) []

/-- The queue and the answers are those of the list. -/
structure Serves (null : Object) (log : List (Entry Tid (QueueCall Object) (Option Object)))
    (q : Queue Addr Object) (cells : List (Addr × Object)) : Prop where
  shape : q.Shape cells
  size : q.qsize = toInt cells.length
  stored : cells.map Prod.snd = (served log).2
  answers : log.filterMap Entry.result = (served log).1.map (·.getD null)

variable {null : Object} {log : List (Entry Tid (QueueCall Object) (Option Object))}
  {q : Queue Addr Object} {cells : List (Addr × Object)}

theorem served_enqueue (log : List (Entry Tid (QueueCall Object) (Option Object))) (i : Tid)
    (o : Object) (result : Option Object) :
    served (log ++ [⟨i, .enqueue o, result⟩]) = ((served log).1, (served log).2 ++ [o]) := by
  rw [served, List.map_append, Fifo.serve_append]
  simp [served, Fifo.serve]

theorem served_dequeue {stored : List Object} (rest : (served log).2 = stored) (i : Tid)
    (result : Option Object) :
    served (log ++ [⟨i, .dequeue, result⟩]) = ((served log).1 ++ [stored.head?], stored.tail) := by
  rw [served, List.map_append, Fifo.serve_append]
  rw [served] at rest
  rw [rest]
  cases stored <;> rfl

theorem Serves.enqueue (serves : Serves null log q cells) {a : Addr} (free : a ∉ q.heap) {o : Object}
    {q' : Queue Addr Object} (enqueued : q.enqueue a o = some q') (i : Tid) :
    Serves null (log ++ [⟨i, .enqueue o, none⟩]) q' (cells ++ [(a, o)]) := by
  obtain ⟨_, enqueued', shape, size⟩ := Queue.enqueue_shape serves.shape free o
  rw [enqueued] at enqueued'
  cases enqueued'
  refine ⟨shape, ?_, ?_, ?_⟩
  · rw [size, serves.size, Queue.toInt_add]
    simp
  · rw [served_enqueue]
    simp [serves.stored]
  · rw [served_enqueue, List.filterMap_append, serves.answers]
    simp

theorem Serves.dequeue (serves : Serves null log q cells) {o : Object} {q' : Queue Addr Object}
    (dequeued : q.dequeueLocked = some (o, q')) (i : Tid) :
    Serves null (log ++ [⟨i, .dequeue, some o⟩]) q' cells.tail := by
  cases cells with
  | nil =>
      rw [Queue.dequeueLocked_empty (serves.shape.chain.null_iff.mpr rfl)] at dequeued
      cases dequeued
  | cons cell cells =>
      obtain ⟨_, dequeued', shape, size⟩ := Queue.dequeueLocked_shape serves.shape
      rw [dequeued] at dequeued'
      cases dequeued'
      have later := served_dequeue serves.stored.symm i (some cell.2)
      refine ⟨shape, ?_, ?_, ?_⟩
      · rw [size, serves.size, sub_eq_add_neg, Queue.toInt_add]
        simp
      · rw [later]
        rfl
      · rw [later, List.filterMap_append, serves.answers]
        simp

theorem Serves.nothing (serves : Serves null log q cells) (noHead : q.head = none) (i : Tid) :
    Serves null (log ++ [⟨i, .dequeue, some null⟩]) q cells := by
  obtain rfl := serves.shape.chain.null_iff.mp noHead
  have later := served_dequeue serves.stored.symm i (some null)
  refine ⟨serves.shape, serves.size, ?_, ?_⟩
  · rw [later]
    rfl
  · rw [later, List.filterMap_append, serves.answers]
    simp

/-- One call after the other, the queue does what the list does. -/
theorem serves_of_serial (serial : Serial (methods null) Queue.make log q) :
    ∃ cells, Serves null log q cells := by
  induction serial with
  | nil => exact ⟨[], Queue.make_shape, Queue.make_size, rfl, rfl⟩
  | @answer _ _ i call result _ early ih =>
      obtain ⟨cells, serves⟩ := ih
      cases call with
      | enqueue o => cases early
      | dequeue =>
          simp only [methods, Option.ite_none_right_eq_some, Option.some.injEq] at early
          obtain ⟨noHead, rfl⟩ := early
          exact ⟨cells, serves.nothing noHead i⟩
  | @work _ _ _ i call result _ outcome ih =>
      obtain ⟨cells, serves⟩ := ih
      cases call with
      | enqueue o =>
          obtain ⟨rfl, a, free, enqueued⟩ := outcome
          exact ⟨_, serves.enqueue free enqueued i⟩
      | dequeue =>
          obtain ⟨o, rfl, dequeued⟩ := outcome
          exact ⟨_, serves.dequeue dequeued i⟩

theorem Serves.head_iff (serves : Serves null log q cells) :
    q.head = none ↔ (served log).2 = [] := by
  rw [serves.shape.chain.null_iff, ← serves.stored, List.map_eq_nil_iff]

theorem Serves.single (serves : Serves null log q cells) {v : Object} (stored : (served log).2 = [v]) :
    (methods null).early q .dequeue = none ∧
      ∃ q', (methods null).work q .dequeue q' (some v) ∧ q'.head = none := by
  obtain ⟨a, rfl⟩ : ∃ a, cells = [(a, v)] := by
    have values := serves.stored
    rw [stored] at values
    obtain ⟨⟨a, w⟩, one, rfl⟩ := List.map_eq_singleton_iff.mp values
    exact ⟨a, one⟩
  have notNull : q.head ≠ none := fun noHead => by simpa using serves.shape.chain.null_iff.mp noHead
  obtain ⟨q', dequeued, shape, -⟩ := Queue.dequeueLocked_shape serves.shape
  exact ⟨by simp [methods, notNull], q', ⟨v, rfl, dequeued⟩, shape.chain.null_iff.mpr rfl⟩

/-- In the lock every call has an outcome but a `dequeue` that finds nothing stored. -/
theorem Serves.outcome_iff [Infinite Addr] (serves : Serves null log q cells)
    (call : QueueCall Object) :
    (∃ q' result, (methods null).work q call q' result) ↔
      ¬ (call = .dequeue ∧ (served log).2 = []) := by
  cases call with
  | enqueue o =>
      obtain ⟨a, free⟩ := Infinite.exists_notMem_finset q.heap.keys
      have free : a ∉ q.heap := fun member => free (Finmap.mem_keys.mpr member)
      obtain ⟨q', enqueued, -⟩ := Queue.enqueue_shape serves.shape free o
      exact iff_of_true ⟨q', none, rfl, a, free, enqueued⟩ (by simp)
  | dequeue =>
      rw [← serves.head_iff]
      cases cells with
      | nil =>
          have noHead : q.head = none := serves.shape.chain.null_iff.mpr rfl
          refine iff_of_false ?_ fun some_head => some_head ⟨rfl, noHead⟩
          rintro ⟨q', _, o, -, dequeued⟩
          rw [Queue.dequeueLocked_empty noHead] at dequeued
          cases dequeued
      | cons cell cells =>
          have notNull : q.head ≠ none := fun null => by
            simpa using serves.shape.chain.null_iff.mp null
          obtain ⟨q', dequeued, -⟩ := Queue.dequeueLocked_shape serves.shape
          exact iff_of_true ⟨q', _, _, rfl, dequeued⟩ fun both => notNull both.2

variable [DecidableEq Tid] {programs : Tid → List (QueueCall Object)} {n : Nat}
  {s t : State Tid (Queue Addr Object) (QueueCall Object) (Option Object)}

omit [DecidableEq Tid] in
theorem faults_iff [Infinite Addr] (serves : Serves null s.log s.object cells) :
    s.Faults (methods null) ↔
      (served s.log).2 = [] ∧ ∃ i todo, s.threads i = ⟨todo, .inside .dequeue⟩ := by
  constructor
  · rintro ⟨i, todo, call, here, none⟩
    obtain ⟨rfl, empty⟩ := not_not.mp fun some_outcome => by
      obtain ⟨q', result, works⟩ := (serves.outcome_iff call).mpr some_outcome
      exact none q' result works
    exact ⟨empty, i, todo, here⟩
  · rintro ⟨empty, i, todo, here⟩
    refine ⟨i, todo, .dequeue, here, fun q' result works => ?_⟩
    exact (serves.outcome_iff .dequeue).mp ⟨q', result, works⟩ ⟨rfl, empty⟩

/-- The first thread puts in an object, the others take one. -/
def oneForAll {k : Nat} (i : Fin (k + 1)) : List (QueueCall Nat) :=
  if i = 0 then [.enqueue 7] else [.dequeue]

theorem seven_stored {programs : Tid → List (QueueCall Nat)} {i : Tid} {todo : List (QueueCall Nat)}
    (puts : programs i = .enqueue 7 :: todo) :
    ∃ s : State Tid (Queue Nat Nat) (QueueCall Nat) (Option Nat),
      Run (methods 0) 4 (.start Queue.make programs) s ∧ s.log = [⟨i, .enqueue 7, none⟩] ∧
        s.holder = none ∧ ∀ j, j ≠ i → s.threads j = ⟨programs j, .idle⟩ := by
  have shape : (Queue.make : Queue Nat Nat).Shape [] := Queue.make_shape
  obtain ⟨q, enqueued, -⟩ := Queue.enqueue_shape shape (a := 0) Finmap.notMem_empty 7
  have works : (methods 0).work Queue.make (.enqueue 7) q none :=
    ⟨rfl, 0, Finmap.notMem_empty, enqueued⟩
  have start : (State.start Queue.make programs :
      State Tid (Queue Nat Nat) (QueueCall Nat) (Option Nat)).threads i =
        ⟨.enqueue 7 :: todo, .idle⟩ := congrArg (Thread.mk · .idle) puts
  exact ⟨_, Run.nil.call start rfl rfl works, rfl, rfl, fun j other =>
    Function.update_of_ne other _ _⟩

theorem seven_taken {programs : Tid → List (QueueCall Nat)} {i j : Tid}
    {todo todo' : List (QueueCall Nat)} (puts : programs i = .enqueue 7 :: todo) (other : j ≠ i)
    (takes : programs j = .dequeue :: todo') :
    ∃ s : State Tid (Queue Nat Nat) (QueueCall Nat) (Option Nat),
      Run (methods 0) 8 (.start Queue.make programs) s ∧
        s.log = [⟨i, .enqueue 7, none⟩, ⟨j, .dequeue, some 7⟩] ∧ s.object.head = none ∧
        ∀ k, k ≠ i → k ≠ j → s.threads k = ⟨programs k, .idle⟩ := by
  obtain ⟨s, run, isLog, free, others⟩ := seven_stored puts
  obtain ⟨cells, serves⟩ := serves_of_serial run.serial
  obtain ⟨finds, q, works, noHead⟩ := serves.single (v := 7) (by rw [isLog]; rfl)
  have here : s.threads j = ⟨.dequeue :: todo', .idle⟩ := by rw [others j other, takes]
  refine ⟨_, run.call here finds free works, ?_, noHead, fun k notPuts notTakes => ?_⟩
  · rw [isLog]
    rfl
  · rw [← others k notPuts]
    exact Function.update_of_ne notTakes _ _

/-- Any number of threads, in any order of their steps: the calls have the answers of a list, in
    the order in which they took effect; the nodes are in shape; each thread has made the calls
    of its program, each once; one thread at most is in the lock. A thread reads through the
    null pointer exactly when it is in the lock for a `dequeue` and nothing is stored. -/
theorem shared_fifo [Infinite Addr] (run : Run (methods null) n (.start Queue.make programs) s) :
    s.log.filterMap Entry.result = (served s.log).1.map (·.getD null) ∧
    Fifo.enqueued (s.log.map Entry.call) = (served s.log).1.reduceOption ++ (served s.log).2 ∧
    s.object.WellShaped (served s.log).2 ∧ s.object.size = toInt (served s.log).2.length ∧
    (∀ i, s.doneBy i ++ (s.threads i).place.pending ++ (s.threads i).todo = programs i) ∧
    (∀ i j, (s.threads i).place.locked = true → (s.threads j).place.locked = true → i = j) ∧
    (∀ m t, Run (methods null) m s t → s.log <+: t.log) ∧
    (s.Faults (methods null) ↔
      (served s.log).2 = [] ∧ ∃ i todo, s.threads i = ⟨todo, .inside .dequeue⟩) := by
  obtain ⟨cells, serves⟩ := serves_of_serial run.serial
  have shape := serves.shape
  refine ⟨serves.answers, Fifo.serve_order _ [], ?_, ?_, run.kept, ?_, ?_, faults_iff serves⟩
  · exact ⟨cells, shape, serves.stored, shape.chain.nodup, fun t last => shape.tail_next last,
      shape.null_iff⟩
  · rw [Queue.size, serves.size, ← serves.stored, List.length_map]
  · exact fun i j first second => run.exclusive.alone first second
  · exact fun m t later => later.log_prefix

theorem shared_fifo_seven :
    ∃ t : State (Fin 3) (Queue Nat Nat) (QueueCall Nat) (Option Nat),
      Run (methods 0) 9 (.start Queue.make oneForAll) t ∧
        t.log.filterMap Entry.result = [7, 0] ∧ Fifo.enqueued (t.log.map Entry.call) = [7] ∧
        t.object.WellShaped [] ∧ t.object.size = 0 := by
  obtain ⟨s, run, isLog, noHead, others⟩ :=
    seven_taken (rfl : oneForAll (0 : Fin 3) = [.enqueue 7]) (j := 1) (by decide) rfl
  obtain ⟨t, run, isLog⟩ : ∃ t : State (Fin 3) (Queue Nat Nat) (QueueCall Nat) (Option Nat),
      Run (methods 0) 9 (.start Queue.make oneForAll) t ∧
        t.log = [⟨0, .enqueue 7, none⟩, ⟨1, .dequeue, some 7⟩, ⟨2, .dequeue, some 0⟩] := by
    refine ⟨_, run.snoc (.answer (others 2 (by decide) (by decide)) (if_pos noHead)), ?_⟩
    exact congrArg (· ++ [⟨2, .dequeue, some 0⟩]) isLog
  have isServed : served t.log = ([some 7, none], []) := by
    rw [isLog]
    rfl
  obtain ⟨answers, order, shaped, size, -⟩ := shared_fifo run
  rw [isServed] at answers order shaped size
  exact ⟨t, run, answers, order, shaped, size⟩

/-! ## One thread that takes -/

/-- Where a thread is about to take an object, something is stored. -/
def Fed (s : State Tid (Queue Addr Object) (QueueCall Object) (Option Object)) : Prop :=
  ∀ i, .dequeue ∈ (s.threads i).place.pending → s.object.head ≠ none

omit [DecidableEq Addr] in
theorem Fed.moves {i : Tid} (fed : Fed s)
    (others : ∀ j, j ≠ i → t.threads j = s.threads j) (same : t.object = s.object)
    (own : .dequeue ∈ (t.threads i).place.pending → s.object.head ≠ none) : Fed t := by
  intro j takes
  rw [same]
  by_cases here : j = i
  · subst here
    exact own takes
  · rw [others j here] at takes
    exact fed j takes

theorem fed_step {consumer : Tid} (only : ∀ i, i ≠ consumer → .dequeue ∉ programs i)
    (kept : Kept programs s) (fed : Fed s) (step : Step (methods null) s t) : Fed t := by
  cases step with
  | @answer i call todo result here early =>
      refine fed.moves (i := i) (fun j other => State.move_other other) rfl ?_
      simp [State.move, Place.pending]
  | @enter i call todo here early =>
      refine fed.moves (i := i) (fun j other => State.move_other other) rfl ?_
      intro takes noHead
      rw [State.move_self] at takes
      obtain rfl := List.mem_singleton.mp takes
      simp [methods, noHead] at early
  | @lock i call todo here free =>
      refine fed.moves (i := i) (fun j other => State.move_other other) rfl ?_
      intro takes
      refine fed i ?_
      rw [here]
      simpa [State.move, Place.pending] using takes
  | @work i call todo object result here outcome =>
      intro j takes
      by_cases own : j = i
      · subst own
        simp [State.move, Place.pending] at takes
      · have takes : .dequeue ∈ (s.threads j).place.pending := by
          simpa [State.move, own] using takes
        -- the one that takes is not the one that works, which puts something in
        have isConsumer : j = consumer := by
          by_contra other
          refine only j other ?_
          rw [← kept j]
          simp [takes]
        cases call with
        | enqueue o =>
            obtain ⟨-, a, -, enqueued⟩ := outcome
            exact Queue.enqueue_head enqueued
        | dequeue =>
            refine absurd ?_ (only i (isConsumer ▸ Ne.symm own))
            rw [← kept i, here]
            simp [Place.pending]
  | @unlock i todo here =>
      refine fed.moves (i := i) (fun j other => State.move_other other) rfl ?_
      simp [State.move, Place.pending]

/-- Where one thread alone takes objects, no thread reads through the null pointer, every run
    comes to an end, and at the end all calls have returned. -/
theorem one_consumer_served [Infinite Addr] [Fintype Tid] (consumer : Tid)
    (only : ∀ i, i ≠ consumer → .dequeue ∉ programs i)
    (run : Run (methods null) n (.start Queue.make programs) s) :
    n ≤ 4 * ∑ i, (programs i).length ∧ ¬ s.Faults (methods null) ∧
      ((∀ t, ¬ Step (methods null) s t) →
        ∀ i, s.threads i = ⟨[], .idle⟩ ∧ s.doneBy i = programs i) := by
  obtain ⟨cells, serves⟩ := serves_of_serial run.serial
  obtain ⟨-, fed⟩ := run.invariant (I := fun s => Kept programs s ∧ Fed s)
    ⟨fun i => by simp [State.start, State.doneBy, Place.pending],
      fun i takes => by simp [State.start, Place.pending] at takes⟩
    fun _ _ both step => ⟨step.kept both.1, fed_step only both.1 both.2 step⟩
  have sound : ¬ s.Faults (methods null) := by
    intro faults
    obtain ⟨empty, i, todo, here⟩ := (faults_iff serves).mp faults
    refine fed i ?_ (serves.head_iff.mpr empty)
    rw [here]
    simp [Place.pending]
  refine ⟨run.length_le, sound, fun stopped i => ?_⟩
  rcases run.exclusive.progress (methods null) with ⟨t, step⟩ | finished | faults
  · exact absurd step (stopped t)
  · have whole := run.kept i
    rw [finished i] at whole
    exact ⟨finished i, by simpa [Place.pending] using whole⟩
  · exact absurd faults sound

theorem one_consumer_served_seven :
    ∃ s : State (Fin 2) (Queue Nat Nat) (QueueCall Nat) (Option Nat),
      Run (methods 0) 8 (.start Queue.make oneForAll) s ∧
        s.log = [⟨0, .enqueue 7, none⟩, ⟨1, .dequeue, some 7⟩] ∧ ¬ s.Faults (methods 0) ∧
        ∀ i, s.threads i = ⟨[], .idle⟩ ∧ s.doneBy i = oneForAll i := by
  obtain ⟨s, run, isLog, -⟩ :=
    seven_taken (rfl : oneForAll (0 : Fin 2) = [.enqueue 7]) (j := 1) (by decide) rfl
  obtain ⟨-, sound, finished⟩ := one_consumer_served 1 (by decide) run
  refine ⟨s, run, isLog, sound, finished fun t step => ?_⟩
  -- the eight steps are all there are
  have bound := (one_consumer_served 1 (by decide) (run.snoc step)).1
  have all : 4 * ∑ i : Fin 2, (oneForAll i).length = 8 := rfl
  omega

/-! ## Two threads that take -/

/-- Where one object is stored and two threads are before a `dequeue`, the run can go on so
    that both find the object before either has it; then the second reads through the null
    pointer. -/
theorem two_consumers_fault (run : Run (methods null) n (.start Queue.make programs) s)
    {v : Object} (stored : (served s.log).2 = [v]) (free : s.holder = none) {i j : Tid}
    (other : j ≠ i) {todo todo' : List (QueueCall Object)}
    (here : s.threads i = ⟨.dequeue :: todo, .idle⟩)
    (there : s.threads j = ⟨.dequeue :: todo', .idle⟩) :
    ∃ t : State Tid (Queue Addr Object) (QueueCall Object) (Option Object),
      Run (methods null) 6 s t ∧ t.log = s.log ++ [⟨i, .dequeue, some v⟩] ∧
        t.threads j = ⟨todo', .inside .dequeue⟩ ∧
        ∀ q' result, ¬ (methods null).work t.object .dequeue q' result := by
  obtain ⟨cells, serves⟩ := serves_of_serial run.serial
  obtain ⟨finds, q', takes, noHead⟩ := serves.single stored
  have run := Run.nil.snoc (.enter here finds)
  have run := run.snoc (.enter (i := j) ((State.move_other other).trans there) finds)
  have run := run.snoc
    (.lock (i := i) ((State.move_other other.symm).trans (State.move_self _ i _)) free)
  have run := run.snoc (.work (i := i) (State.move_self _ i _) takes)
  have run := run.snoc (.unlock (i := i) (State.move_self _ i _))
  have run := run.snoc (.lock (i := j) (by
    rw [State.move_other other, State.move_other other, State.move_other other,
      State.move_self]) rfl)
  refine ⟨_, run, rfl, State.move_self _ j _, ?_⟩
  rintro rest _ ⟨o, -, second⟩
  have second : q'.dequeueLocked = some (o, rest) := second
  rw [Queue.dequeueLocked_empty noHead] at second
  cases second

theorem two_consumers_fault_seven :
    ∃ s t : State (Fin 3) (Queue Nat Nat) (QueueCall Nat) (Option Nat),
      Run (methods 0) 4 (.start Queue.make oneForAll) s ∧ Run (methods 0) 6 s t ∧
        t.threads 2 = ⟨[], .inside .dequeue⟩ ∧
        ∀ q' result, ¬ (methods 0).work t.object .dequeue q' result := by
  obtain ⟨s, run, isLog, free, others⟩ := seven_stored (rfl : oneForAll (0 : Fin 3) = [.enqueue 7])
  obtain ⟨t, goesOn, -, inside, stuck⟩ := two_consumers_fault run (v := 7) (by rw [isLog]; rfl) free
    (i := 1) (j := 2) (by decide) (others 1 (by decide)) (others 2 (by decide))
  exact ⟨s, t, run, goesOn, inside, stuck⟩

end SharedQueue

end RepositoryManager
