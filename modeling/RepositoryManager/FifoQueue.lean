import Mathlib.Data.Finset.Max
import Mathlib.Data.List.ReduceOption
import RepositoryManager.Lib.LinkedList
import RepositoryManager.Utils

/-! # The FIFO queue

`FifoQueue.h` over a heap of nodes. `enqueue` appends at `tail`, and passes through a
self-loop while the queue has one node; `dequeue` frees the node at `head`. The size is
an `int` of its own. Over it stands a list; every series of calls leaves the nodes from
`head` on as the stored values.

A node is made at an address that is not in use. `none` stands for an access through the
null pointer or to a node that is not there.
-/

namespace RepositoryManager

open LinkedList

variable {Addr Object : Type} [DecidableEq Addr]

/-! ## The queue -/

/-- `qnode` -/
abbrev QNode (Addr Object : Type) := Cell Addr Object

/-- `queue`, and the heap that its nodes are in. -/
structure Queue (Addr Object : Type) where
  heap : Heap Addr Object
  qsize : Int
  head : Option Addr
  tail : Option Addr
  current : Option Addr

namespace Queue

/-- `queue()` -/
def make : Queue Addr Object :=
  { heap := ∅, qsize := 0, head := none, tail := none, current := none }

/-- `enqueue(o)`, where `new` gives the address `a`. -/
def enqueue (a : Addr) (o : Object) (q : Queue Addr Object) : Option (Queue Addr Object) := do
  let heap := q.heap.insert a { data := o, next := none }
  let current := some a
  let qsize := toInt (q.qsize + 1)
  if q.head = none then
    let heap ← setNext heap current none
    return { heap, qsize, head := current, tail := current, current }
  else
    let heap ← (if q.head = q.tail then setNext heap q.head q.tail else some heap)
    let heap ← setNext heap q.tail current
    let heap ← setNext heap current none
    return { heap, qsize, head := q.head, tail := current, current }

/-- `dequeue()`, where `null` is what `NULL` is for an object. -/
def dequeue (null : Object) (q : Queue Addr Object) : Option (Object × Queue Addr Object) :=
  match q.head with
  | none => some (null, q)
  | some a => do
      let qsize := toInt (q.qsize - 1)
      let node ← q.heap.lookup a
      let current := node.next
      let heap := q.heap.erase a
      if current = none then
        return (node.data, { heap, qsize, head := none, tail := none, current := none })
      else return (node.data, { heap, qsize, head := current, tail := q.tail, current })

/-- `size()` -/
def size (q : Queue Addr Object) : Int := q.qsize

/-- `empty()` -/
def empty (q : Queue Addr Object) : Bool := q.qsize = 0

end Queue

/-- A call on a queue. -/
inductive QueueCall (Object : Type) where
  | enqueue (o : Object)
  | dequeue
  deriving DecidableEq

/-- What `new` gives at each moment: an address that is not in use. -/
structure Allocator (Addr Object : Type) [DecidableEq Addr] where
  new : Nat → Heap Addr Object → Addr
  free : ∀ time heap, new time heap ∉ heap

/-- The calls one after the other, with the objects that `dequeue` returns. -/
def Queue.run (null : Object) (alloc : Allocator Addr Object) :
    Nat → List (QueueCall Object) → Queue Addr Object → Option (List Object × Queue Addr Object)
  | _, [], q => some ([], q)
  | time, .enqueue o :: calls, q => do
      let q ← q.enqueue (alloc.new time q.heap) o
      run null alloc (time + 1) calls q
  | time, .dequeue :: calls, q => do
      let (o, q) ← q.dequeue null
      let (os, q) ← run null alloc (time + 1) calls q
      return (o :: os, q)

/-! ## The list -/

namespace Fifo

/-- The calls on a list: what they take from it, if there is anything, and what is left. -/
def serve : List (QueueCall Object) → List Object → List (Option Object) × List Object
  | [], stored => ([], stored)
  | .enqueue o :: calls, stored => serve calls (stored ++ [o])
  | .dequeue :: calls, [] => (none :: (serve calls []).1, (serve calls []).2)
  | .dequeue :: calls, v :: stored => (some v :: (serve calls stored).1, (serve calls stored).2)

/-- The objects that are put in. -/
def enqueued : List (QueueCall Object) → List Object
  | [] => []
  | .enqueue o :: calls => o :: enqueued calls
  | .dequeue :: calls => enqueued calls

/-- Each object that is put in comes out once, in order, or is still there. -/
theorem serve_order (calls : List (QueueCall Object)) (stored : List Object) :
    stored ++ enqueued calls =
      (serve calls stored).1.reduceOption ++ (serve calls stored).2 := by
  induction calls generalizing stored with
  | nil => simp [serve, enqueued, List.reduceOption]
  | cons call calls ih =>
      cases call with
      | enqueue o => simpa [serve, enqueued] using ih (stored ++ [o])
      | dequeue =>
          cases stored with
          | nil => simpa [serve, enqueued, List.reduceOption] using ih []
          | cons v stored => simpa [serve, enqueued, List.reduceOption] using ih stored

end Fifo

/-! ## The shape -/

/-- The nodes in the heap are those met from `head` along `next`, and `tail` is the last. -/
structure Queue.Shape (q : Queue Addr Object) (cells : List (Addr × Object)) : Prop where
  chain : Chain q.heap q.head cells
  owned : ∀ a, a ∈ q.heap ↔ a ∈ cells.map Prod.fst
  tail : q.tail = cells.getLast?.map Prod.fst

namespace Queue

theorem make_shape : (make : Queue Addr Object).Shape [] :=
  { chain := .nil, owned := by simp [make, Finmap.notMem_empty], tail := rfl }

omit [DecidableEq Addr] in
theorem make_size : (make : Queue Addr Object).qsize = toInt ([] : List (Addr × Object)).length :=
  (toInt_of_lt (Int.le_refl 0) (by simp)).symm

theorem Shape.null_iff {q : Queue Addr Object} {cells : List (Addr × Object)}
    (shape : q.Shape cells) : q.head = none ↔ q.tail = none := by
  rw [shape.chain.null_iff, shape.tail]
  simp

theorem Shape.tail_next {q : Queue Addr Object} {cells : List (Addr × Object)}
    (shape : q.Shape cells) {t : Addr} (last : q.tail = some t) :
    ∃ v, q.heap.lookup t = some { data := v, next := none } := by
  rcases List.eq_nil_or_concat' cells with rfl | ⟨front, ⟨b, v⟩, rfl⟩
  · rw [shape.tail] at last
    cases last
  · rw [shape.tail, List.getLast?_concat] at last
    cases last
    exact ⟨v, shape.chain.last⟩

theorem link_tail {β : Type} {heap : Heap Addr Object} {head : Option Addr} {t a : Addr}
    {v o : Object} (last : heap.lookup t = some { data := v, next := none })
    (made : heap.lookup a = some { data := o, next := none }) (other : t ≠ a)
    (k : Heap Addr Object → Option β) :
    (do
      let heap ← (if head = some t then setNext heap head (some t) else some heap)
      let heap ← setNext heap (some t) (some a)
      let heap ← setNext heap (some a) none
      k heap) = k (heap.insert t { data := v, next := some a }) := by
  have kept : (heap.insert t { data := v, next := some a }).lookup a =
      some { data := o, next := none } := by
    rw [Finmap.lookup_insert_of_ne heap other.symm, made]
  split
  · next alone =>
      rw [alone, setNext_of_lookup last, Option.bind_eq_bind, Option.bind_some,
        setNext_of_lookup (Finmap.lookup_insert heap), Finmap.insert_insert, Option.bind_some,
        setNext_unchanged kept, Option.bind_some]
  · rw [Option.bind_eq_bind, Option.bind_some, setNext_of_lookup last, Option.bind_some,
      setNext_unchanged kept, Option.bind_some]

theorem enqueue_shape {q : Queue Addr Object} {cells : List (Addr × Object)} (shape : q.Shape cells)
    {a : Addr} (free : a ∉ q.heap) (o : Object) :
    ∃ q', q.enqueue a o = some q' ∧ q'.Shape (cells ++ [(a, o)]) ∧
      q'.qsize = toInt (q.qsize + 1) := by
  obtain ⟨node, isNode⟩ : ∃ node : QNode Addr Object, node = { data := o, next := none } := ⟨_, rfl⟩
  have made := @Finmap.lookup_insert _ _ _ a node q.heap
  rcases List.eq_nil_or_concat' cells with rfl | ⟨front, ⟨t, v⟩, rfl⟩
  · have null : q.head = none := shape.chain.null_iff.mpr rfl
    rw [isNode] at made
    refine ⟨_, by rw [enqueue, if_pos null, setNext_unchanged made]; rfl, ?_, rfl⟩
    refine { chain := .cons made .nil, owned := fun b => ?_, tail := rfl }
    simp [Finmap.mem_insert, shape.owned]
  · have notNull : q.head ≠ none := fun null => by simpa using shape.chain.null_iff.mp null
    have last : q.tail = some t := by simp [shape.tail]
    have apart : a ∉ (front ++ [(t, v)]).map Prod.fst := fun member =>
      free ((shape.owned a).mpr member)
    have other : t ≠ a := by
      rintro rfl
      simp at apart
    have framed : Chain (q.heap.insert a node) q.head (front ++ [(t, v)]) := by
      refine shape.chain.frame fun b member => Finmap.lookup_insert_of_ne q.heap ?_
      rintro rfl
      exact apart member
    rw [isNode] at made framed
    have linked := framed.snoc made apart
    refine ⟨_, by rw [enqueue, if_neg notNull, last, link_tail framed.last made other]; rfl,
      ?_, rfl⟩
    refine { chain := by simpa using linked, owned := fun b => ?_, tail := by simp }
    have before := shape.owned b
    simp only [List.map_append, List.map_cons, List.map_nil, List.mem_append, List.mem_singleton]
      at before ⊢
    rw [Finmap.mem_insert, Finmap.mem_insert, before]
    tauto

theorem dequeue_empty (null : Object) {q : Queue Addr Object} (shape : q.Shape []) :
    q.dequeue null = some (null, q) := by
  have noHead : q.head = none := shape.chain.null_iff.mpr rfl
  rw [dequeue, noHead]

theorem dequeue_shape (null : Object) {q : Queue Addr Object} {a : Addr} {v : Object}
    {cells : List (Addr × Object)} (shape : q.Shape ((a, v) :: cells)) :
    ∃ q', q.dequeue null = some (v, q') ∧ q'.Shape cells ∧ q'.qsize = toInt (q.qsize - 1) := by
  obtain ⟨next, first, found, rest⟩ : ∃ next, q.head = some a ∧
      q.heap.lookup a = some { data := v, next := next } ∧ Chain q.heap next cells := by
    have chain := shape.chain
    generalize q.head = head at chain
    cases chain with
    | cons found rest => exact ⟨_, rfl, found, rest⟩
  have chain := shape.chain
  have nodup := List.nodup_cons.mp chain.nodup
  rw [first] at chain
  have owned : ∀ b, b ∈ q.heap.erase a ↔ b ∈ cells.map Prod.fst := by
    intro b
    rw [Finmap.mem_erase, shape.owned b, List.map_cons, List.mem_cons]
    constructor
    · rintro ⟨other, same | member⟩
      · exact absurd same other
      · exact member
    · intro member
      refine ⟨?_, .inr member⟩
      rintro rfl
      exact nodup.1 member
  rw [dequeue, first]
  simp only [found, Option.bind_eq_bind, Option.bind_some]
  by_cases null : next = none
  · obtain rfl := rest.null_iff.mp null
    exact ⟨_, by rw [if_pos null]; rfl, { chain := .nil, owned, tail := rfl }, rfl⟩
  · obtain ⟨cell, cells, rfl⟩ :=
      List.exists_cons_of_ne_nil fun last => null (rest.null_iff.mpr last)
    refine ⟨_, by rw [if_neg null]; rfl, { chain := chain.pop found, owned, tail := ?_ }, rfl⟩
    rw [shape.tail, List.getLast?_cons_cons]

/-! ## Series of calls -/

theorem toInt_add (n m : Int) : toInt (toInt n + m) = toInt (n + m) := Int.bmod_add_bmod

/-- From a queue in shape, every series of calls goes as on a list. -/
theorem run_shape (null : Object) (alloc : Allocator Addr Object) (calls : List (QueueCall Object))
    {time : Nat} {q : Queue Addr Object} {cells : List (Addr × Object)} (shape : q.Shape cells)
    (size : q.qsize = toInt cells.length) :
    ∃ q' cells', q.run null alloc time calls =
        some ((Fifo.serve calls (cells.map Prod.snd)).1.map (·.getD null), q') ∧
      q'.Shape cells' ∧ cells'.map Prod.snd = (Fifo.serve calls (cells.map Prod.snd)).2 ∧
      q'.qsize = toInt cells'.length := by
  induction calls generalizing time q cells with
  | nil => exact ⟨q, cells, rfl, shape, rfl, size⟩
  | cons call calls ih =>
      cases call with
      | enqueue o =>
          obtain ⟨q', enqueued, shape', size'⟩ := enqueue_shape shape (alloc.free time q.heap) o
          have counted : q'.qsize = toInt (cells ++ [(alloc.new time q.heap, o)]).length := by
            rw [size', size, toInt_add]
            simp
          obtain ⟨last, cells', ran, rest⟩ := @ih (time + 1) _ _ shape' counted
          rw [List.map_append, List.map_singleton] at ran rest
          refine ⟨last, cells', ?_, rest⟩
          rw [run, enqueued, Option.bind_eq_bind, Option.bind_some, ran]
          rfl
      | dequeue =>
          cases cells with
          | nil =>
              obtain ⟨last, cells', ran, rest⟩ := @ih (time + 1) _ _ shape size
              refine ⟨last, cells', ?_, rest⟩
              rw [run, dequeue_empty null shape]
              simp only [Option.bind_eq_bind, Option.bind_some, ran]
              rfl
          | cons cell cells =>
              obtain ⟨q', dequeued, shape', size'⟩ := dequeue_shape null shape
              have counted : q'.qsize = toInt cells.length := by
                rw [size', size, sub_eq_add_neg, toInt_add]
                simp
              obtain ⟨last, cells', ran, rest⟩ := @ih (time + 1) _ _ shape' counted
              refine ⟨last, cells', ?_, rest⟩
              rw [run, dequeued]
              simp only [Option.bind_eq_bind, Option.bind_some, ran]
              rfl

/-! ## The queue as a list -/

/-- The nodes from `head` on hold the stored objects: an acyclic chain that ends at `tail`. -/
def WellShaped (q : Queue Addr Object) (stored : List Object) : Prop :=
  ∃ cells, q.Shape cells ∧ cells.map Prod.snd = stored ∧ (cells.map Prod.fst).Nodup ∧
    (∀ t, q.tail = some t → ∃ v, q.heap.lookup t = some { data := v, next := none }) ∧
    (q.head = none ↔ q.tail = none)

/-- `dequeue` gives `NULL` where there is nothing to take, and nowhere else. -/
def NullWhenEmpty (null : Object) (results : List Object) (served : List (Option Object)) : Prop :=
  List.Forall₂ (fun o taken => o = null ↔ taken = none) results served

theorem nullWhenEmpty_of_absent {null : Object} {served : List (Option Object)}
    (absent : null ∉ served.reduceOption) :
    NullWhenEmpty null (served.map (·.getD null)) served := by
  rw [NullWhenEmpty, List.forall₂_map_left_iff, List.forall₂_same]
  intro taken member
  cases taken with
  | none => simp
  | some v =>
      refine iff_of_false (fun same : v = null => ?_) nofun
      exact absent (List.reduceOption_mem_iff.mpr (same ▸ member))

/-- Every series of calls on a new queue takes what it takes from a list, leaves the nodes in
    shape, and counts them up to the range of `int`. -/
theorem run_fifo (null : Object) (alloc : Allocator Addr Object)
    (calls : List (QueueCall Object)) :
    ∃ q, make.run null alloc 0 calls = some ((Fifo.serve calls []).1.map (·.getD null), q) ∧
      Fifo.enqueued calls = (Fifo.serve calls []).1.reduceOption ++ (Fifo.serve calls []).2 ∧
      (null ∉ Fifo.enqueued calls →
        NullWhenEmpty null ((Fifo.serve calls []).1.map (·.getD null)) (Fifo.serve calls []).1) ∧
      q.WellShaped (Fifo.serve calls []).2 ∧
      q.size = toInt (Fifo.serve calls []).2.length ∧
      ((Fifo.serve calls []).2.length < 2147483648 → q.size = (Fifo.serve calls []).2.length) := by
  obtain ⟨q, cells, ran, shape, stored, size⟩ :=
    @run_shape _ _ _ null alloc calls 0 make [] make_shape make_size
  have order : Fifo.enqueued calls =
      (Fifo.serve calls []).1.reduceOption ++ (Fifo.serve calls []).2 := Fifo.serve_order calls []
  have counted : q.size = toInt (Fifo.serve calls []).2.length := by
    rw [Queue.size, size, ← List.length_map, stored, List.map_nil]
  refine ⟨q, ran, order, fun absent => ?_, ⟨cells, shape, stored, shape.chain.nodup,
    fun t last => shape.tail_next last, shape.null_iff⟩, counted, fun few => ?_⟩
  · rw [order, List.mem_append, not_or] at absent
    exact nullWhenEmpty_of_absent absent.1
  · rw [counted, toInt_of_lt (by omega) (by omega)]

omit [DecidableEq Addr] in
theorem empty_iff {q : Queue Addr Object} {stored : List Object}
    (size : q.qsize = toInt stored.length) (few : stored.length < 2147483648) :
    q.empty = true ↔ stored = [] := by
  rw [empty, size, toInt_of_lt (by omega) (by omega)]
  simp

/-- An allocator that takes the address behind the last one in use. -/
def nextFree : Allocator Nat Object :=
  { new := fun _ heap => heap.keys.max.unbotD 0 + 1
    free := by
      intro _ heap member
      have inUse := Finmap.mem_keys.mpr member
      obtain ⟨last, isLast⟩ := Finset.max_of_mem inUse
      have bound := Finset.le_max_of_eq inUse isLast
      rw [isLast, WithBot.unbotD_coe] at bound
      exact Nat.not_succ_le_self _ bound }

/-- The calls do what a queue is for: `NULL` only from an empty queue, the size the number
    of stored objects. -/
def AsDocumented (null : Object) (alloc : Allocator Addr Object)
    (calls : List (QueueCall Object)) : Prop :=
  ∃ results q, make.run null alloc 0 calls = some (results, q) ∧
    NullWhenEmpty null results (Fifo.serve calls []).1 ∧
    q.size = (Fifo.serve calls []).2.length

theorem serve_replicate (o : Object) (n : Nat) (stored : List Object) :
    Fifo.serve (List.replicate n (.enqueue o)) stored = ([], stored ++ List.replicate n o) := by
  induction n generalizing stored with
  | zero => simp [Fifo.serve]
  | succ n ih => simp [List.replicate_succ, Fifo.serve, ih]

/-- `NULL` comes back from a queue that holds it, and the size is negative from the call on
    that stores the object of number 2147483648. -/
theorem null_enqueued :
    ¬ AsDocumented 0 nextFree [.enqueue 0, .dequeue] ∧
    ¬ AsDocumented 0 nextFree (List.replicate 2147483648 (.enqueue 1)) := by
  constructor
  · rintro ⟨results, q, ran, nulls, -⟩
    obtain ⟨_, _, ranAs, -⟩ := @run_shape _ _ _ 0 nextFree
      [.enqueue 0, .dequeue] 0 make [] make_shape make_size
    rw [ran] at ranAs
    cases ranAs
    simp [NullWhenEmpty, Fifo.serve] at nulls
  · rintro ⟨results, q, ran, -, size⟩
    obtain ⟨_, cells, ranAs, -, stored, counted⟩ := @run_shape _ _ _ 0 nextFree
      (List.replicate 2147483648 (.enqueue 1)) 0 make [] make_shape make_size
    rw [ran] at ranAs
    obtain ⟨-, rfl⟩ := Prod.mk.inj (Option.some.inj ranAs)
    rw [List.map_nil, serve_replicate, List.nil_append] at stored
    rw [serve_replicate, List.nil_append, List.length_replicate, Queue.size, counted] at size
    have length : cells.length = 2147483648 := by
      rw [← List.length_map, stored, List.length_replicate]
    rw [length, toInt, Int.bmod_def] at size
    omega

end Queue

end RepositoryManager
