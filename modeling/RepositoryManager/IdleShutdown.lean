import RepositoryManager.Schedules

/-! # Idle shutdown

The counter `children` is raised and lowered in forked processes, and `fork` gives
each its own copy. The copy that the listening process tests is 0 for ever, so its
test is a test of the timer alone.
-/

namespace RepositoryManager

open ByteString Interaction Interaction.Prog ProcessPool ProcessPool.System

/-- The process has left by `exit`, or has been ended. -/
def hasEnded : Server Mode → Bool
  | .ret .exited => true
  | .call .abort _ => true
  | _ => false

/-- The forked processes that still serve a client. -/
def liveSessions (s : Pool Call Reply Mode World) : Nat :=
  s.procs.tail.countP fun q => !hasEnded q.rest

/-! ## The test of the listening process -/

/-- What is left of a pass: a process that asks for the idle time goes on listening, with
    its counter at 0, until the time is over. -/
def Tested : Server Mode → Prop
  | .ret (.listening im) => im.children = 0
  | .ret _ => True
  | .call .elapsed k => ∀ elapsed : Nat, ∃ im, k elapsed = .ret (.listening im) ∧ im.children = 0 ∧
      im.socketListening = decide (elapsed ≤ timeOut)
  | .call _ k => ∀ r, Tested (k r)

theorem Tested.call {c : Call} {k : Reply c → Server Mode} (tested : Tested (.call c k))
    (r : Reply c) : Tested (k r) := by
  cases c with
  | elapsed =>
      obtain ⟨im, same, none, -⟩ := tested r
      rw [same]
      exact none
  | _ => exact tested r

theorem tested_bind {α : Type} {prog : Server α} {f : α → Server Mode}
    (only : prog.Only fun e => e.1 ≠ .elapsed) (next : ∀ a, Tested (f a)) :
    Tested (prog >>= f) := by
  induction prog with
  | ret a => exact next a
  | call c k ih =>
      cases c with
      | elapsed => exact absurd rfl (only (0 : Nat)).1
      | _ => exact fun r => ih r (only r).2

theorem processMsg_tested (p : Platform) (im : TransportService) :
    Tested (processMsg p im >>= fun im => .ret (.serving im)) := by
  refine tested_bind (Only.mono ?_ processMsg_only) fun _ => trivial
  rintro ⟨c, r⟩ checks rfl
  exact checks

theorem processRequest_tested (im : TransportService) {f : Bool × TransportService → Mode}
    (quiet : ∀ a, Tested (.ret (f a))) : Tested (processRequest im >>= fun a => .ret (f a)) := by
  refine tested_bind (Only.mono ?_ (processRequest_only im)) quiet
  rintro ⟨c, r⟩ serves rfl
  exact serves

theorem checkIdle_tested {im : TransportService} (listening : im.socketListening = true)
    (none : im.children = 0) : Tested (checkIdle im) := by
  unfold checkIdle
  rw [if_pos none]
  intro elapsed
  refine ⟨_, rfl, none, ?_⟩
  simp only [listening, Bool.true_and]

theorem acceptClient_tested (p : Platform) {im : TransportService}
    (listening : im.socketListening = true) (none : im.children = 0) :
    Tested (acceptClient p im) := by
  intro fd
  change Tested (if fd ≠ 0 then _ else _)
  split
  · intro first cid
    change Tested (afterFork p _ cid)
    cases cid with
    | child => exact processMsg_tested p _
    | parent => exact checkIdle_tested listening none
    | failed => exact checkIdle_tested listening none
  · exact checkIdle_tested listening none

theorem serve_tested (p : Platform) {m : Mode} (before : Tested (.ret m)) : Tested (serve p m) := by
  cases m with
  | listening im =>
      cases listening : im.socketListening with
      | false =>
          simp only [serve, listening, Bool.false_eq_true, if_false]
          exact fun _ => trivial
      | true =>
          have goes : serve p (.listening im) = listenOnce p im := by
            simp only [serve, listening, if_true]
          rw [goes]
          unfold listenOnce
          split
          · intro cid
            cases cid with
            | child => exact processRequest_tested _ fun _ => trivial
            | parent => exact acceptClient_tested p listening before
            | failed => exact acceptClient_tested p listening before
          · exact acceptClient_tested p listening before
  | serving im =>
      refine processRequest_tested im fun a => ?_
      cases a.1 with
      | false => trivial
      | true => trivial
  | exited => trivial

section Runs

variable {p : Platform} {xsb : Str → Option Str → QueryEnd → Prop} {policy : Str}
  {socketInit : Bool} {file : World} {s t last : Pool Call Reply Mode World}
  {past : List (Pool Call Reply Mode World)}

/-- In every process of every run the counter that is tested is 0. -/
theorem tested_of_reachable
    (reach : (server p xsb).Reachable (startListening policy socketInit) file s) :
    ∀ q ∈ s.procs, Tested q.rest := by
  refine Reachable.each (P := fun q => Tested q.rest) ?_ ?_ ?_ ?_ reach
  · change Tested (serve p (startListening policy socketInit))
    apply serve_tested
    cases socketInit with
    | false => rfl
    | true => rfl
  · intro q c k r tested next
    rw [next] at tested
    exact tested.call r
  · intro q c k r r' tested next double
    rw [next] at tested
    exact tested.call r'
  · intro q m tested done
    rw [done] at tested
    exact serve_tested p tested

/-- From `s` to `t` the listening process reads its timer, which gives `elapsed`, and ends
    the pass with the image `im`. -/
structure Tests (s t : Pool Call Reply Mode World) (elapsed : Nat) (im : TransportService) :
    Prop where
  made : t.trace = s.trace ++ [(0, ⟨.elapsed, elapsed⟩)]
  after : ∃ q, t.procs[0]? = some q ∧ q.rest = .ret (.listening im)

theorem after_elapsed {elapsed : Nat}
    (reach : (server p xsb).Reachable (startListening policy socketInit) file s)
    (move : (server p xsb).Step s t) (made : t.trace = s.trace ++ [(0, ⟨.elapsed, elapsed⟩)]) :
    ∃ q im, t.procs[0]? = some q ∧ q.rest = .ret (.listening im) ∧ im.children = 0 ∧
      im.socketListening = decide (elapsed ≤ timeOut) := by
  cases move with
  | @call i q c k r w found next allowed single =>
      have same := List.append_cancel_left made
      cases same
      have inside := (List.getElem?_eq_some_iff.mp found).1
      have tested := tested_of_reachable reach q (List.mem_of_getElem? found)
      rw [next] at tested
      obtain ⟨im, ends, none, listening⟩ := tested elapsed
      exact ⟨_, im, List.getElem?_set_self inside, ends, none, listening⟩
  | fork =>
      have same := congrArg List.length (List.append_cancel_left made)
      cases same
  | again =>
      have same := congrArg List.length made
      simp at same

theorem Tests.outcome {elapsed : Nat} {im : TransportService}
    (reach : (server p xsb).Reachable (startListening policy socketInit) file s)
    (move : (server p xsb).Step s t) (tests : Tests s t elapsed im) :
    im.children = 0 ∧ im.socketListening = decide (elapsed ≤ timeOut) := by
  obtain ⟨made, q, found, ends⟩ := tests
  obtain ⟨q', im', found', ends', outcome⟩ := after_elapsed reach move made
  rw [found, Option.some.injEq] at found'
  subst found'
  rw [ends] at ends'
  cases ends'
  exact outcome

theorem tests_of_elapsed {elapsed : Nat}
    (reach : (server p xsb).Reachable (startListening policy socketInit) file s)
    (move : (server p xsb).Step s t) (made : t.trace = s.trace ++ [(0, ⟨.elapsed, elapsed⟩)]) :
    ∃ im, Tests s t elapsed im := by
  obtain ⟨q, im, found, ends, -⟩ := after_elapsed reach move made
  exact ⟨im, made, q, found, ends⟩

/-! ## Whole runs -/

/-- The server stops listening for idleness only when no session is live. -/
def IdleShutdown (past : List (Pool Call Reply Mode World))
    (last : Pool Call Reply Mode World) : Prop :=
  ∀ s t elapsed im, Moves past last s t → Tests s t elapsed im → im.socketListening = false →
    liveSessions s = 0

/-- The counter that is tested is the number of live sessions. -/
def CountsSessions (past : List (Pool Call Reply Mode World))
    (last : Pool Call Reply Mode World) : Prop :=
  ∀ s t elapsed im, Moves past last s t → Tests s t elapsed im → im.children = liveSessions s

/-- No session is live when the timer is found to be over. -/
def QuietExpiry (past : List (Pool Call Reply Mode World))
    (last : Pool Call Reply Mode World) : Prop :=
  ∀ s t elapsed im, Moves past last s t → Tests s t elapsed im → timeOut < elapsed →
    liveSessions s = 0

/-- No session is live at any test. -/
def QuietTests (past : List (Pool Call Reply Mode World))
    (last : Pool Call Reply Mode World) : Prop :=
  ∀ s t elapsed im, Moves past last s t → Tests s t elapsed im → liveSessions s = 0

/-- A run is free of shutdowns over a live session exactly if its timer is never over
    while a session is live, and its counter is right exactly if it is never tested while a
    session is live. -/
theorem idleShutdown_iff
    (run : (server p xsb).Run (startListening policy socketInit) file past last) :
    (IdleShutdown past last ↔ QuietExpiry past last) ∧
      (CountsSessions past last ↔ QuietTests past last) := by
  refine ⟨⟨?_, ?_⟩, ⟨?_, ?_⟩⟩
  · intro sound s t elapsed im moves tests expired
    obtain ⟨reach, move⟩ := run.move moves
    apply sound s t elapsed im moves tests
    rw [(tests.outcome reach move).2]
    exact decide_eq_false (Nat.not_le.mpr expired)
  · intro quiet s t elapsed im moves tests stops
    obtain ⟨reach, move⟩ := run.move moves
    apply quiet s t elapsed im moves tests
    rw [(tests.outcome reach move).2] at stops
    exact Nat.not_le.mp (of_decide_eq_false stops)
  · intro counts s t elapsed im moves tests
    obtain ⟨reach, move⟩ := run.move moves
    have counted := counts s t elapsed im moves tests
    rw [(tests.outcome reach move).1] at counted
    exact Int.ofNat_eq_zero.mp counted.symm
  · intro quiet s t elapsed im moves tests
    obtain ⟨reach, move⟩ := run.move moves
    rw [(tests.outcome reach move).1, quiet s t elapsed im moves tests]
    rfl

end Runs

/-! ## A client after a quiet time -/

theorem live_pos {s : Pool Call Reply Mode World} {i : Nat} {q : Process Call Reply Mode}
    (found : s.procs[i + 1]? = some q) (goesOn : hasEnded q.rest = false) : 0 < liveSessions s := by
  refine List.countP_pos_iff.mpr ⟨q, ?_, ?_⟩
  · rw [← List.drop_one]
    apply List.mem_of_getElem? (i := i)
    rw [List.getElem?_drop, Nat.add_comm]
    exact found
  · rw [goesOn]
    rfl

theorem alice_after_silence (xsb : Str → Option Str → QueryEnd → Prop) :
    ∃ past s t im, (server villagePlatform xsb).Run (startListening [] true) none (past ++ [s]) t ∧
      Tests s t 11000000000 im ∧ timeOut < 11000000000 ∧ 0 < liveSessions s := by
  obtain ⟨s, reach, -, -, ⟨q, at_0, waits⟩, ⟨child, at_1, -, begins⟩, -, -⟩ :=
    hand_over .init (atHome_init villagePlatform xsb [] none) (show (4 : Int) ≠ 0 by decide)
      (show (userMsg alice).length ≤ maxBuff by decide +kernel)
  obtain ⟨past, run⟩ := reach.run
  have idles : q.rest = .call .elapsed fun elapsed : Nat => .ret (.listening
      { parentImage [] 4 with socketListening := true && decide (elapsed ≤ timeOut) }) := waits
  have asks : (server villagePlatform xsb).Step s
      { procs := s.procs.set 0 (q.after ⟨.elapsed, (11000000000 : Nat)⟩ _)
        world := s.world
        trace := s.trace ++ [(0, ⟨.elapsed, (11000000000 : Nat)⟩)] } :=
    .call at_0 idles rfl rfl
  have inside := (List.getElem?_eq_some_iff.mp at_0).1
  refine ⟨past, s, _, _, run.step asks, ⟨rfl, _, List.getElem?_set_self inside, rfl⟩,
    by decide, live_pos (i := 0) at_1 ?_⟩
  rw [begins]
  have message : cstr (userMsg alice) = userMsg alice := cstr_of_clean alice_known.clean
  simp only [processMsg, childImage, message, alice_known.nonempty, if_false, alice_known.parsed]
  rfl

/-- The server stops listening while alice is being served, and counts no session. -/
theorem alice_counted_as_idle :
    ∃ past last, (server villagePlatform fun _ _ _ => False).Run (startListening [] true) none past
      last ∧ ¬ IdleShutdown past last ∧ ¬ CountsSessions past last := by
  obtain ⟨past, s, t, im, run, tests, expired, live⟩ := alice_after_silence fun _ _ _ => False
  obtain ⟨reach, move⟩ := run.move (.last past s t)
  have outcome := tests.outcome reach move
  refine ⟨_, _, run, fun sound => ?_, fun counts => ?_⟩
  · have none := sound s t _ im (.last past s t) tests
      (outcome.2.trans (decide_eq_false (Nat.not_le.mpr expired)))
    omega
  · have counted := counts s t _ im (.last past s t) tests
    rw [outcome.1] at counted
    omega

theorem idleShutdown_iff_alice :
    ∃ past last, (server villagePlatform fun _ _ _ => False).Run (startListening [] true) none past
      last ∧ (IdleShutdown past last ↔ QuietExpiry past last) ∧
      (CountsSessions past last ↔ QuietTests past last) := by
  obtain ⟨past, s, t, im, run, -⟩ := alice_after_silence fun _ _ _ => False
  exact ⟨_, _, run, idleShutdown_iff run⟩

end RepositoryManager
