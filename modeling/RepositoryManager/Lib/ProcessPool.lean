import RepositoryManager.Lib.Interaction

/-! # Pools of processes

Processes that run the same looping program, share one world and interleave in
any order. A call can have a twin reply: the process that makes it gets one
reply, and a copy of it, with all its state and its history, gets the other and
joins the pool. That is `fork`. What holds of every history of the sequential
program holds of every process of every reachable pool, and the trace of a pool
is a run of the world.
-/

namespace ProcessPool

open Interaction Interaction.Prog

/-- A looping program, the world its calls are answered by, and the calls that copy
    the caller. -/
structure System (C : Type) (R : C → Type) (M W : Type) where
  body : M → Prog C R M
  allowed : W → (c : C) → R c → W → Prop
  twin : (c : C) → R c → Option (R c)

variable {C : Type} {R : C → Type} {M W : Type}

/-- What a process did before it was forked, what it did since, and what it still
    has to do. -/
structure Process (C : Type) (R : C → Type) (M : Type) where
  inherited : List (Event C R)
  own : List (Event C R)
  rest : Prog C R M

def Process.history (p : Process C R M) : List (Event C R) := p.inherited ++ p.own

/-- The processes in the order of their creation, the world they share, and every
    call so far with the index of its process. -/
structure Pool (C : Type) (R : C → Type) (M W : Type) where
  procs : List (Process C R M)
  world : W
  trace : List (Nat × Event C R)

/-- A process after one call. -/
def Process.after (p : Process C R M) (e : Event C R) (rest : Prog C R M) : Process C R M :=
  { p with own := p.own ++ [e], rest := rest }

/-- The copy of a process that gets the twin reply. -/
def Process.fork (p : Process C R M) (e : Event C R) (rest : Prog C R M) : Process C R M :=
  { inherited := p.history, own := [e], rest := rest }

namespace System

variable (sys : System C R M W)

inductive Step : Pool C R M W → Pool C R M W → Prop where
  /-- One process makes a call. -/
  | call {s : Pool C R M W} {i p c k r w} (found : s.procs[i]? = some p)
      (next : p.rest = .call c k) (allowed : sys.allowed s.world c r w)
      (single : sys.twin c r = none) :
      Step s
        { procs := s.procs.set i (p.after ⟨c, r⟩ (k r))
          world := w
          trace := s.trace ++ [(i, ⟨c, r⟩)] }
  /-- One process makes a call and is copied. -/
  | fork {s : Pool C R M W} {i p c k r r' w} (found : s.procs[i]? = some p)
      (next : p.rest = .call c k) (allowed : sys.allowed s.world c r w)
      (double : sys.twin c r = some r') :
      Step s
        { procs := s.procs.set i (p.after ⟨c, r⟩ (k r)) ++ [p.fork ⟨c, r'⟩ (k r')]
          world := w
          trace := s.trace ++ [(i, ⟨c, r⟩), (s.procs.length, ⟨c, r'⟩)] }
  /-- One process begins the next pass of its loop. -/
  | again {s : Pool C R M W} {i p m} (found : s.procs[i]? = some p) (done : p.rest = .ret m) :
      Step s { s with procs := s.procs.set i { p with rest := sys.body m } }

/-- One process at the start of its loop, and nothing done yet. -/
def init (m : M) (w : W) : Pool C R M W :=
  { procs := [{ inherited := [], own := [], rest := sys.body m }], world := w, trace := [] }

inductive Reachable (m : M) (w : W) : Pool C R M W → Prop where
  | init : Reachable m w (sys.init m w)
  | step {s t} : Reachable m w s → sys.Step s t → Reachable m w t

/-- The invariant rule. -/
theorem Reachable.invariant {sys : System C R M W} {m : M} {w : W}
    {I : Pool C R M W → Prop} (first : I (sys.init m w))
    (step : ∀ {s t}, I s → sys.Step s t → I t)
    {s : Pool C R M W} (reach : sys.Reachable m w s) : I s := by
  induction reach with
  | init => exact first
  | step _ move ih => exact step ih move

theorem Reachable.each {sys : System C R M W} {m : M} {w : W}
    {P : Process C R M → Prop} (first : P ⟨[], [], sys.body m⟩)
    (call : ∀ {p c k} (r : R c), P p → p.rest = .call c k → P (p.after ⟨c, r⟩ (k r)))
    (fork : ∀ {p c k} {r r' : R c}, P p → p.rest = .call c k → sys.twin c r = some r' →
      P (p.fork ⟨c, r'⟩ (k r')))
    (again : ∀ {p m}, P p → p.rest = .ret m → P { p with rest := sys.body m })
    {s : Pool C R M W} (reach : sys.Reachable m w s) : ∀ p ∈ s.procs, P p := by
  refine Reachable.invariant (I := fun s => ∀ p ∈ s.procs, P p) ?_ ?_ reach
  · intro p member
    rw [List.mem_singleton.mp member]
    exact first
  · intro s t all move q member
    cases move with
    | call found next allowed single =>
        rcases List.mem_or_eq_of_mem_set member with old | rfl
        · exact all q old
        · exact call _ (all _ (List.mem_of_getElem? found)) next
    | fork found next allowed double =>
        rcases List.mem_append.mp member with inOld | new
        · rcases List.mem_or_eq_of_mem_set inOld with old | rfl
          · exact all q old
          · exact call _ (all _ (List.mem_of_getElem? found)) next
        · rw [List.mem_singleton.mp new]
          exact fork (all _ (List.mem_of_getElem? found)) next double
    | again found done =>
        rcases List.mem_or_eq_of_mem_set member with old | rfl
        · exact all q old
        · exact again (all _ (List.mem_of_getElem? found)) done

theorem Reachable.first {sys : System C R M W} {m : M} {w : W}
    {P : Process C R M → Prop} (init : P ⟨[], [], sys.body m⟩)
    (call : ∀ {p c k} {r : R c} {w w'}, P p → p.rest = .call c k → sys.allowed w c r w' →
      P (p.after ⟨c, r⟩ (k r)))
    (again : ∀ {p m}, P p → p.rest = .ret m → P { p with rest := sys.body m })
    {s : Pool C R M W} (reach : sys.Reachable m w s) : ∃ p, s.procs[0]? = some p ∧ P p := by
  refine Reachable.invariant (I := fun s => ∃ p, s.procs[0]? = some p ∧ P p) ⟨_, rfl, init⟩ ?_ reach
  rintro s t ⟨q, at_0, holds⟩ move
  have inside := (List.getElem?_eq_some_iff.mp at_0).1
  cases move with
  | @call i p c k r w found next allowed single =>
      cases i with
      | zero =>
          rw [at_0, Option.some.injEq] at found
          subst found
          exact ⟨_, List.getElem?_set_self inside, call holds next allowed⟩
      | succ i => exact ⟨q, (List.getElem?_set_ne (Nat.succ_ne_zero i)).trans at_0, holds⟩
  | @fork i p c k r r' w found next allowed double =>
      have kept : ∀ x : Process C R M, ((s.procs.set i x) ++ [p.fork ⟨c, r'⟩ (k r')])[0]? =
          (s.procs.set i x)[0]? :=
        fun x => List.getElem?_append_left (by simpa using inside)
      cases i with
      | zero =>
          rw [at_0, Option.some.injEq] at found
          subst found
          exact ⟨_, (kept _).trans (List.getElem?_set_self inside), call holds next allowed⟩
      | succ i =>
          exact ⟨q, (kept _).trans ((List.getElem?_set_ne (Nat.succ_ne_zero i)).trans at_0), holds⟩
  | @again i p m found done =>
      cases i with
      | zero =>
          rw [at_0, Option.some.injEq] at found
          subst found
          exact ⟨_, List.getElem?_set_self inside, again holds done⟩
      | succ i => exact ⟨q, (List.getElem?_set_ne (Nat.succ_ne_zero i)).trans at_0, holds⟩

/-- Every process of a reachable pool is somewhere in a run of the sequential
    program, its history what this run has done. -/
theorem Reachable.runs {sys : System C R M W} {m : M} {w : W} {s : Pool C R M W}
    (reach : sys.Reachable m w s) : ∀ p ∈ s.procs, Runs sys.body m p.history p.rest := by
  refine Reachable.each (P := fun p => Runs sys.body m p.history p.rest) .start ?_ ?_ ?_ reach
  · intro p c k r run next
    rw [next] at run
    simpa only [Process.history, Process.after, List.append_assoc] using run.call r
  · intro p c k r r' run next double
    rw [next] at run
    simpa only [Process.history, Process.fork] using run.call r'
  · intro p m run done
    rw [done] at run
    exact run.again

/-- A reply that the world gives, or that a copy is told. -/
def Given (sys : System C R M W) (e : Event C R) : Prop :=
  (∃ w w', sys.allowed w e.1 e.2 w') ∨ ∃ r, sys.twin e.1 r = some e.2

theorem Reachable.given {sys : System C R M W} {m : M} {w : W} {s : Pool C R M W}
    (reach : sys.Reachable m w s) : ∀ p ∈ s.procs, ∀ e ∈ p.history, sys.Given e := by
  refine Reachable.invariant (I := fun s => ∀ p ∈ s.procs, ∀ e ∈ p.history, sys.Given e) ?_ ?_ reach
  · intro p member e inside
    rw [List.mem_singleton.mp member] at inside
    cases inside
  · have later : ∀ {p : Process C R M} {e : Event C R} {q : Prog C R M},
        (∀ e ∈ p.history, sys.Given e) → sys.Given e → ∀ e' ∈ (p.after e q).history, sys.Given e' := by
      intro p e q before given e' inside
      rw [Process.history, Process.after, ← List.append_assoc] at inside
      rcases List.mem_append.mp inside with old | new
      · exact before e' old
      · rw [List.mem_singleton.mp new]
        exact given
    intro s t all move q member
    cases move with
    | @call i p c k r w found next allowed single =>
        rcases List.mem_or_eq_of_mem_set member with old | rfl
        · exact all q old
        · exact later (all _ (List.mem_of_getElem? found)) (.inl ⟨_, _, allowed⟩)
    | @fork i p c k r r' w found next allowed double =>
        have before := all _ (List.mem_of_getElem? found)
        rcases List.mem_append.mp member with inOld | new
        · rcases List.mem_or_eq_of_mem_set inOld with old | rfl
          · exact all q old
          · exact later before (.inl ⟨_, _, allowed⟩)
        · rw [List.mem_singleton.mp new]
          intro e inside
          rcases List.mem_append.mp inside with old | own
          · exact before e old
          · rw [List.mem_singleton.mp own]
            exact .inr ⟨r, double⟩
    | @again i p m found done =>
        rcases List.mem_or_eq_of_mem_set member with old | rfl
        · exact all q old
        · have before := all p (List.mem_of_getElem? found)
          exact before

/-! ## Runs -/

/-- A run: the pools it went through, and the pool it has reached. -/
inductive Run (m : M) (w : W) : List (Pool C R M W) → Pool C R M W → Prop where
  | init : Run m w [] (sys.init m w)
  | step {past s t} : Run m w past s → sys.Step s t → Run m w (past ++ [s]) t

/-- A move of a run: two pools that come one after the other. -/
def Moves (past : List (Pool C R M W)) (last s t : Pool C R M W) : Prop :=
  ∃ before after, past ++ [last] = before ++ s :: t :: after

theorem Run.reachable {sys : System C R M W} {m : M} {w : W} {past} {s : Pool C R M W}
    (run : sys.Run m w past s) : sys.Reachable m w s := by
  induction run with
  | init => exact .init
  | step _ move ih => exact .step ih move

theorem Reachable.run {sys : System C R M W} {m : M} {w : W} {s : Pool C R M W}
    (reach : sys.Reachable m w s) : ∃ past, sys.Run m w past s := by
  induction reach with
  | init => exact ⟨[], .init⟩
  | step _ move ih =>
      obtain ⟨past, run⟩ := ih
      exact ⟨past ++ [_], run.step move⟩

theorem Run.through {sys : System C R M W} {m : M} {w : W} {past} {last : Pool C R M W}
    (run : sys.Run m w past last) : ∀ s ∈ past ++ [last], sys.Reachable m w s := by
  induction run with
  | init =>
      intro s member
      rw [List.mem_singleton.mp member]
      exact .init
  | step run move ih =>
      intro s member
      rcases List.mem_append.mp member with before | isLast
      · exact ih s before
      · rw [List.mem_singleton.mp isLast]
        exact run.reachable.step move

theorem Run.move {sys : System C R M W} {m : M} {w : W} {past} {last s t : Pool C R M W}
    (run : sys.Run m w past last) (moves : Moves past last s t) :
    sys.Reachable m w s ∧ sys.Step s t := by
  obtain ⟨before, after, cut⟩ := moves
  induction run generalizing after with
  | init => simp [List.cons_eq_append_iff] at cut
  | @step past s' t' run move ih =>
      rcases List.eq_nil_or_concat after with rfl | ⟨front, final, rfl⟩
      · have ends : past ++ [s'] ++ [t'] = before ++ [s] ++ [t] := by simpa using cut
        obtain ⟨same, isLast⟩ := List.append_inj' ends rfl
        obtain ⟨-, isNext⟩ := List.append_inj' same rfl
        cases isLast
        cases isNext
        exact ⟨run.reachable, move⟩
      · have ends : past ++ [s'] ++ [t'] = (before ++ s :: t :: front) ++ [final] := by
          simpa using cut
        exact ih front (List.append_inj' ends rfl).1

theorem Moves.last (past : List (Pool C R M W)) (s t : Pool C R M W) : Moves (past ++ [s]) t s t :=
  ⟨past, [], by simp⟩

/-! ## Building runs -/

/-- The world gives the replies of a history, none of which copies the caller. -/
inductive Answers : W → List (Event C R) → W → Prop where
  | nil {w} : Answers w [] w
  | cons {w c r w' h w''} : sys.allowed w c r w' → sys.twin c r = none → Answers w' h w'' →
      Answers w (⟨c, r⟩ :: h) w''

theorem Answers.append {sys : System C R M W} {w w' w'' : W} {h h' : List (Event C R)}
    (first : sys.Answers w h w') (second : sys.Answers w' h' w'') : sys.Answers w (h ++ h') w'' := by
  induction first with
  | nil => exact second
  | cons allowed single _ ih => exact .cons allowed single (ih second)

/-- Some processes of a pool have changed, and no other. -/
structure Frame (changed : Nat → Prop) (s t : Pool C R M W) : Prop where
  length : s.procs.length ≤ t.procs.length
  same : ∀ j < s.procs.length, ¬ changed j → t.procs[j]? = s.procs[j]?

theorem Frame.set (s : Pool C R M W) (i : Nat) (q : Process C R M) (w : W) (trace) :
    Frame (· = i) s { procs := s.procs.set i q, world := w, trace } :=
  ⟨by simp, fun _ _ other => List.getElem?_set_ne (Ne.symm other)⟩

theorem Reachable.advance {sys : System C R M W} {m : M} {w₀ : W} {s : Pool C R M W}
    (reach : sys.Reachable m w₀ s) {i : Nat} {p : Process C R M} (found : s.procs[i]? = some p)
    {h : List (Event C R)} {q : Prog C R M} (steps : Steps p.rest h q) {w : W}
    (answers : sys.Answers s.world h w) :
    ∃ t, sys.Reachable m w₀ t ∧ Frame (· = i) s t ∧ t.procs.length = s.procs.length ∧
      t.procs[i]? = some { p with own := p.own ++ h, rest := q } ∧ t.world = w ∧
      t.trace = s.trace ++ h.map fun e => (i, e) := by
  induction h generalizing s p with
  | nil =>
      cases answers
      rw [steps.eq_of_nil]
      exact ⟨s, reach, ⟨Nat.le_refl _, fun _ _ _ => rfl⟩, rfl, by simpa using found, rfl, by simp⟩
  | cons e h ih =>
      obtain ⟨inside, -⟩ := List.getElem?_eq_some_iff.mp found
      obtain ⟨k, next, rest⟩ := steps.head
      cases answers with
      | @cons _ c r w' _ _ allowed single later =>
          obtain ⟨t, reach', frame, length, at_i, world, trace⟩ :=
            ih (reach.step (.call found next allowed single)) (List.getElem?_set_self inside) rest
              later
          refine ⟨t, reach', ⟨by simpa using frame.length, fun j bound other => ?_⟩,
            by simpa using length, by simpa [Process.after] using at_i, world, by simpa using trace⟩
          rw [frame.same j (by simpa using bound) other]
          exact List.getElem?_set_ne (Ne.symm other)

theorem Reachable.spawn {sys : System C R M W} {m : M} {w₀ : W} {s : Pool C R M W}
    (reach : sys.Reachable m w₀ s) {i : Nat} {p : Process C R M} (found : s.procs[i]? = some p)
    {c : C} {k} (next : p.rest = .call c k) {r r' : R c} {w : W}
    (allowed : sys.allowed s.world c r w) (double : sys.twin c r = some r') :
    ∃ t, sys.Reachable m w₀ t ∧ Frame (· = i) s t ∧ t.procs.length = s.procs.length + 1 ∧
      t.procs[i]? = some (p.after ⟨c, r⟩ (k r)) ∧
      t.procs[s.procs.length]? = some (p.fork ⟨c, r'⟩ (k r')) ∧ t.world = w ∧
      t.trace = s.trace ++ [(i, ⟨c, r⟩), (s.procs.length, ⟨c, r'⟩)] := by
  obtain ⟨inside, -⟩ := List.getElem?_eq_some_iff.mp found
  refine ⟨_, reach.step (.fork found next allowed double), ⟨by simp, fun j bound other => ?_⟩, by simp,
    ?_, by simp, rfl, rfl⟩
  · rw [List.getElem?_append_left (by simpa using bound)]
    exact List.getElem?_set_ne (Ne.symm other)
  · rw [List.getElem?_append_left (by simpa using inside)]
    exact List.getElem?_set_self inside

theorem Reachable.next {sys : System C R M W} {m : M} {w₀ : W} {s : Pool C R M W}
    (reach : sys.Reachable m w₀ s) {i : Nat} {p : Process C R M} (found : s.procs[i]? = some p)
    {m' : M} (done : p.rest = .ret m') :
    ∃ t, sys.Reachable m w₀ t ∧ Frame (· = i) s t ∧ t.procs.length = s.procs.length ∧
      t.procs[i]? = some { p with rest := sys.body m' } ∧ t.world = s.world ∧ t.trace = s.trace := by
  obtain ⟨inside, -⟩ := List.getElem?_eq_some_iff.mp found
  exact ⟨_, reach.step (.again found done), .set s i _ _ _, by simp, List.getElem?_set_self inside,
    rfl, rfl⟩

/-! ## The trace -/

/-- The calls of one process in a trace. -/
def callsOf (i : Nat) (trace : List (Nat × Event C R)) : List (Event C R) :=
  trace.filterMap fun e => if e.1 = i then some e.2 else none

@[simp] theorem callsOf_append (i : Nat) (s t : List (Nat × Event C R)) :
    callsOf i (s ++ t) = callsOf i s ++ callsOf i t :=
  List.filterMap_append

theorem mem_callsOf {i : Nat} {trace : List (Nat × Event C R)} {e} :
    e ∈ callsOf i trace ↔ (i, e) ∈ trace := by
  constructor
  · intro member
    obtain ⟨⟨j, f⟩, inTrace, same⟩ := List.mem_filterMap.mp member
    split at same
    · rename_i eq
      cases same
      exact eq ▸ inTrace
    · cases same
  · intro member
    exact List.mem_filterMap.mpr ⟨(i, e), member, by simp⟩

theorem cut_callsOf {i : Nat} {trace : List (Nat × Event C R)} {a b : List (Event C R)} {e}
    (calls : callsOf i trace = a ++ e :: b) :
    ∃ before after, trace = before ++ (i, e) :: after ∧ callsOf i before = a ∧
      callsOf i after = b := by
  obtain ⟨front, back, rfl, isFront, isBack⟩ := List.filterMap_eq_append_iff.mp calls
  obtain ⟨quiet, x, after, rfl, none, isEvent, isAfter⟩ := List.filterMap_eq_cons_iff.mp isBack
  have same : x = (i, e) := by
    split at isEvent
    · rename_i mine
      cases isEvent
      exact Prod.ext mine rfl
    · cases isEvent
  have silent : callsOf i quiet = [] := List.filterMap_eq_nil_iff.mpr none
  refine ⟨front ++ quiet, after, by rw [same, List.append_assoc], ?_, isAfter⟩
  rw [callsOf_append, silent, List.append_nil]
  exact isFront

theorem callsOf_map (i j : Nat) (now : List (Event C R)) :
    callsOf j (now.map (i, ·)) = if i = j then now else [] := by
  by_cases same : i = j
  · simp [callsOf, List.filterMap_map, same]
  · simp [callsOf, List.filterMap_map, same]

/-- The trace holds, for each process, exactly what this process has done itself,
    and nothing of processes that do not exist. -/
structure Traced (procs : List (Process C R M)) (trace : List (Nat × Event C R)) : Prop where
  own : ∀ i p, procs[i]? = some p → p.own = callsOf i trace
  bounded : ∀ e ∈ trace, e.1 < procs.length

section Traced

variable {procs : List (Process C R M)} {trace : List (Nat × Event C R)}

theorem Traced.set (traced : Traced procs trace) {i : Nat} {p q : Process C R M}
    (found : procs[i]? = some p) {now : List (Event C R)} (own : q.own = p.own ++ now) :
    Traced (procs.set i q) (trace ++ now.map (i, ·)) := by
  have inside := (List.getElem?_eq_some_iff.mp found).1
  refine ⟨?_, ?_⟩
  · intro j r at_j
    rw [callsOf_append, callsOf_map]
    by_cases here : i = j
    · subst here
      rw [List.getElem?_set_self inside, Option.some.injEq] at at_j
      rw [← at_j, own, traced.own i p found, if_pos rfl]
    · rw [List.getElem?_set_ne here] at at_j
      rw [traced.own j r at_j, if_neg here, List.append_nil]
  · intro e member
    rw [List.length_set]
    rcases List.mem_append.mp member with old | new
    · exact traced.bounded e old
    · obtain ⟨_, -, rfl⟩ := List.mem_map.mp new
      exact inside

theorem Traced.push (traced : Traced procs trace) (q : Process C R M) :
    Traced (procs ++ [q]) (trace ++ q.own.map (procs.length, ·)) := by
  have fresh : callsOf procs.length trace = [] := by
    rw [callsOf, List.filterMap_eq_nil_iff]
    intro e member
    exact if_neg (Nat.ne_of_lt (traced.bounded e member))
  refine ⟨?_, ?_⟩
  · intro j r at_j
    rw [callsOf_append, callsOf_map]
    by_cases old : j < procs.length
    · rw [List.getElem?_append_left old] at at_j
      rw [traced.own j r at_j, if_neg (by omega), List.append_nil]
    · have last : j = procs.length := by
        have inside := (List.getElem?_eq_some_iff.mp at_j).1
        rw [List.length_append, List.length_singleton] at inside
        omega
      subst last
      rw [List.getElem?_concat_length, Option.some.injEq] at at_j
      rw [fresh, if_pos rfl, List.nil_append, at_j]
  · intro e member
    rw [List.length_append, List.length_singleton]
    rcases List.mem_append.mp member with old | new
    · exact Nat.lt_succ_of_lt (traced.bounded e old)
    · obtain ⟨_, -, rfl⟩ := List.mem_map.mp new
      exact Nat.lt_succ_self _

end Traced

theorem Reachable.traced {sys : System C R M W} {m : M} {w : W} {s : Pool C R M W}
    (reach : sys.Reachable m w s) : Traced s.procs s.trace := by
  refine Reachable.invariant (I := fun s => Traced s.procs s.trace) ?_ ?_ reach
  · refine ⟨?_, by simp [System.init]⟩
    intro i p found
    have only : p ∈ (sys.init m w).procs := List.mem_of_getElem? found
    rw [List.mem_singleton.mp only]
    rfl
  · intro s t traced move
    cases move with
    | @call i p c k r w found next allowed single =>
        have goesOn : (p.after ⟨c, r⟩ (k r)).own = p.own ++ [⟨c, r⟩] := rfl
        exact traced.set found goesOn
    | @fork i p c k r r' w found next allowed double =>
        have goesOn : (p.after ⟨c, r⟩ (k r)).own = p.own ++ [⟨c, r⟩] := rfl
        have copied := (traced.set found goesOn).push (p.fork ⟨c, r'⟩ (k r'))
        simpa only [List.length_set, Process.fork, List.map_cons, List.map_nil, List.append_assoc,
          List.singleton_append] using copied
    | @again i p m found done =>
        have same : ({ p with rest := sys.body m } : Process C R M).own = p.own ++ [] :=
          (List.append_nil _).symm
        simpa using traced.set found same

/-- The replies of a trace are those its world gives, call after call; a twin
    reply asks nothing of the world. -/
inductive Replay : W → List (Nat × Event C R) → W → Prop where
  | nil {w} : Replay w [] w
  | call {w trace w' i c r w''} : Replay w trace w' → sys.allowed w' c r w'' →
      Replay w (trace ++ [(i, ⟨c, r⟩)]) w''
  | twin {w trace w' i c r r'} : Replay w trace w' → sys.twin c r = some r' →
      Replay w (trace ++ [(i, ⟨c, r'⟩)]) w'

theorem Reachable.replay {sys : System C R M W} {m : M} {w : W} {s : Pool C R M W}
    (reach : sys.Reachable m w s) : sys.Replay w s.trace s.world := by
  refine Reachable.invariant (I := fun s => sys.Replay w s.trace s.world) .nil ?_ reach
  intro s t run move
  cases move with
  | call found next allowed single => exact run.call allowed
  | fork found next allowed double =>
      simpa only [List.append_assoc, List.cons_append, List.nil_append] using
        (run.call allowed).twin double
  | again found done => exact run

end System

end ProcessPool
