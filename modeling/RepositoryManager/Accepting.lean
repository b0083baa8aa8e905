import RepositoryManager.Schedules

/-! # Accepted connections

What the listener makes of the results of `accept` and of the first read. It tests the
descriptor for 0, which a failed `accept` does not return, and for the read it tests
`bytesRead`, which the read is not assigned to. So it forks after every read, the failed
ones included; its own state stays what it was in every case.
-/

namespace RepositoryManager

open ByteString Interaction Interaction.Prog ProcessPool ProcessPool.System

/-! ## Clients and forks -/

/-- The last two calls are an `accept` and the first read on what it returned. -/
def Handing (h : History) : Prop :=
  ∃ before fd r, h = before ++ [⟨.accept, fd⟩, ⟨.read fd maxBuff, r⟩]

/-- The last two calls have accepted a connection and read a message from it. -/
def ClientWaits (h : History) : Prop :=
  ∃ before fd bytes, h = before ++ [⟨.accept, fd⟩, ⟨.read fd maxBuff, some bytes⟩] ∧
    0 ≤ (fd : Int) ∧ bytes ≠ []

def IsFork (e : Event Call Reply) : Prop := ∃ cid, e = ⟨.fork, cid⟩

/-- A session is forked for each client that waits, at once, and at no other time. -/
def ForksForClients (h : History) : Prop :=
  ∀ before e after, h = before ++ e :: after → (IsFork e ↔ ClientWaits before)

/-- Each time the listener went on after an `accept` and a read, they had given it a
    connection and a message. -/
def OnlyClients (h : History) : Prop :=
  ∀ before e after, h = before ++ e :: after → Handing before → ClientWaits before

/-- The state of the listener between two passes is that before the first: only the timer
    has stopped it. -/
structure Unchanged (own : History) (im : TransportService) : Prop where
  noMessage : im.socketMsg = []
  noChildren : im.children = 0
  notProcessing : im.processingRequests = false
  stopped : im.socketListening = false →
    ∃ before elapsed, own = before ++ [⟨.elapsed, elapsed⟩] ∧ timeOut < (elapsed : Nat)

theorem ClientWaits.handing {h : History} (waits : ClientWaits h) : Handing h := by
  obtain ⟨before, fd, bytes, cut, -⟩ := waits
  exact ⟨before, fd, some bytes, cut⟩

theorem handing_snoc {h : History} {e : Event Call Reply} :
    Handing (h ++ [e]) ↔ ∃ before fd r, h = before ++ [⟨.accept, fd⟩] ∧ e = ⟨.read fd maxBuff, r⟩ := by
  constructor
  · rintro ⟨before, fd, r, cut⟩
    have split : h ++ [e] = (before ++ [⟨.accept, fd⟩]) ++ [⟨.read fd maxBuff, r⟩] := by simpa using cut
    obtain ⟨same, last⟩ := List.append_inj' split rfl
    exact ⟨before, fd, r, same, List.singleton_inj.mp last⟩
  · rintro ⟨before, fd, r, rfl, rfl⟩
    exact ⟨before, fd, r, by simp⟩

/-! ## The passes of the listener -/

/-- Forks come right after the first read, whatever it and `accept` returned, in all that is
    left of a pass, and the pass ends in a state that is unchanged. -/
def Paired (own : History) : Server Mode → Prop
  | .ret (.listening im) => ¬ Handing own ∧ Unchanged own im
  | .ret (.serving _) => False
  | .ret .exited => ¬ Handing own
  | .call c k => (c = .fork ↔ Handing own) ∧
      ∀ r, (⟨c, r⟩ : Event Call Reply) ≠ ⟨.fork, .child⟩ → Paired (own ++ [⟨c, r⟩]) (k r)

theorem checkIdle_paired {own : History} {im : TransportService} (noMessage : im.socketMsg = [])
    (noChildren : im.children = 0) (notProcessing : im.processingRequests = false)
    (listening : im.socketListening = true) (notHanding : ¬ Handing own) :
    Paired own (checkIdle im) := by
  unfold checkIdle
  rw [if_pos noChildren]
  refine ⟨iff_of_false Call.noConfusion notHanding, fun elapsed _ => ⟨?_, ?_⟩⟩
  · rw [handing_snoc]
    rintro ⟨_, _, _, -, same⟩
    cases same
  · refine ⟨noMessage, noChildren, notProcessing, fun stops => ⟨own, elapsed, rfl, ?_⟩⟩
    simpa [listening] using stops

theorem acceptClient_paired (p : Platform) {own : History} {im : TransportService}
    (noMessage : im.socketMsg = []) (noChildren : im.children = 0)
    (notProcessing : im.processingRequests = false) (listening : im.socketListening = true)
    (notHanding : ¬ Handing own) : Paired own (acceptClient p im) := by
  refine ⟨iff_of_false Call.noConfusion notHanding, fun fd _ => ?_⟩
  have accepted : ¬ Handing (own ++ [⟨.accept, fd⟩]) := by
    rw [handing_snoc]
    rintro ⟨_, _, _, -, same⟩
    cases same
  change Paired _ (if fd ≠ 0 then _ else _)
  split
  · refine ⟨iff_of_false Call.noConfusion accepted, fun r _ => ?_⟩
    refine ⟨iff_of_true rfl (handing_snoc.mpr ⟨own, fd, r, rfl, rfl⟩), fun cid notChild => ?_⟩
    have forked : ¬ Handing (own ++ [⟨.accept, fd⟩] ++ [⟨.read fd maxBuff, r⟩] ++ [⟨.fork, cid⟩]) := by
      rw [handing_snoc]
      rintro ⟨_, _, _, -, same⟩
      cases same
    change Paired _ (afterFork p _ cid)
    cases cid with
    | child => exact absurd rfl notChild
    | parent => exact checkIdle_paired rfl noChildren notProcessing listening forked
    | failed => exact checkIdle_paired rfl noChildren notProcessing listening forked
  · exact checkIdle_paired noMessage noChildren notProcessing listening accepted

theorem serve_paired (p : Platform) {own : History} {im : TransportService}
    (noMessage : im.socketMsg = []) (noChildren : im.children = 0)
    (notProcessing : im.processingRequests = false) (notHanding : ¬ Handing own) :
    Paired own (serve p (.listening im)) := by
  cases listening : im.socketListening with
  | false =>
      simp only [serve, listening, Bool.false_eq_true, if_false]
      refine ⟨iff_of_false Call.noConfusion notHanding, fun _ _ => ?_⟩
      change ¬ Handing _
      rw [handing_snoc]
      rintro ⟨_, _, _, -, same⟩
      cases same
  | true =>
      simp only [serve, listening, if_true, listenOnce, notProcessing, Bool.false_eq_true, if_false]
      exact acceptClient_paired p noMessage noChildren notProcessing listening notHanding

/-! ## Runs -/

section Runs

variable {p : Platform} {xsb : Str → Option Str → QueryEnd → Prop} {policy : Str}
  {socketInit : Bool} {file : World} {s last : Pool Call Reply Mode World}
  {past : List (Pool Call Reply Mode World)}

theorem paired_of_reachable
    (reach : (server p xsb).Reachable (startListening policy socketInit) file s) :
    ∃ q, s.procs[0]? = some q ∧ Paired q.own q.rest ∧
      ∀ before e after, q.own = before ++ e :: after → (IsFork e ↔ Handing before) := by
  refine Reachable.first (P := fun q => Paired q.own q.rest ∧
    ∀ before e after, q.own = before ++ e :: after → (IsFork e ↔ Handing before)) ?_ ?_ ?_ reach
  · refine ⟨?_, by simp⟩
    have notHanding : ¬ Handing [] := by
      rintro ⟨before, fd, r, cut⟩
      simp at cut
    obtain ⟨im, begins, noMessage, noChildren, notProcessing⟩ : ∃ im,
        startListening policy socketInit = .listening im ∧ im.socketMsg = [] ∧ im.children = 0 ∧
          im.processingRequests = false := by
      cases socketInit <;> exact ⟨_, rfl, rfl, rfl, rfl⟩
    rw [begins]
    exact serve_paired p noMessage noChildren notProcessing notHanding
  · rintro q c k r w w' ⟨paired, forks⟩ next allowed
    rw [next] at paired
    obtain ⟨forkNow, later⟩ := paired
    have notChild : (⟨c, r⟩ : Event Call Reply) ≠ ⟨.fork, .child⟩ := by
      intro same
      cases same
      exact allowed.1 rfl
    refine ⟨later r notChild, fun before e after cut => ?_⟩
    have cut : q.own ++ [⟨c, r⟩] = before ++ e :: after := cut
    rcases List.eq_nil_or_concat' after with rfl | ⟨after, e', rfl⟩
    · obtain ⟨rfl, same⟩ := List.append_inj' cut rfl
      cases same
      rw [← forkNow]
      constructor
      · rintro ⟨cid, same⟩
        cases same
        rfl
      · rintro rfl
        exact ⟨r, rfl⟩
    · have split : q.own ++ [⟨c, r⟩] = (before ++ e :: after) ++ [e'] := by simpa using cut
      exact forks before e after (List.append_inj' split rfl).1
  · rintro q m ⟨paired, forks⟩ done
    rw [done] at paired
    refine ⟨?_, forks⟩
    cases m with
    | listening im =>
        obtain ⟨notHanding, unchanged⟩ := paired
        exact serve_paired p unchanged.noMessage unchanged.noChildren unchanged.notProcessing
          notHanding
    | serving im => exact paired.elim
    | exited => exact paired

/-- At each point of the run the listener has forked for the clients and for nothing else,
    and its state is unchanged. -/
def ForksOnlyForClients (past : List (Pool Call Reply Mode World))
    (last : Pool Call Reply Mode World) : Prop :=
  ∀ s ∈ past ++ [last], ∀ q, s.procs[0]? = some q →
    ForksForClients q.own ∧ ∀ im, q.rest = .ret (.listening im) → Unchanged q.own im

/-- At no point of the run has the listener gone on after a failed `accept`, or a first read
    that failed or was empty. -/
def NothingFails (past : List (Pool Call Reply Mode World))
    (last : Pool Call Reply Mode World) : Prop :=
  ∀ s ∈ past ++ [last], ∀ q, s.procs[0]? = some q → OnlyClients q.own

/-- The listener forks exactly for its clients in the runs in which nothing fails. -/
theorem forksOnlyForClients_iff
    (run : (server p xsb).Run (startListening policy socketInit) file past last) :
    ForksOnlyForClients past last ↔ NothingFails past last := by
  have listener : ∀ s ∈ past ++ [last], ∀ q, s.procs[0]? = some q → Paired q.own q.rest ∧
      ∀ before e after, q.own = before ++ e :: after → (IsFork e ↔ Handing before) := by
    intro s member q at_0
    obtain ⟨q', found, paired⟩ := paired_of_reachable (run.through s member)
    rw [at_0, Option.some.injEq] at found
    rw [found]
    exact paired
  constructor
  · intro forks s member q at_0 before e after cut handing
    have isFork := ((listener s member q at_0).2 before e after cut).mpr handing
    exact ((forks s member q at_0).1 before e after cut).mp isFork
  · intro clients s member q at_0
    obtain ⟨paired, forks⟩ := listener s member q at_0
    refine ⟨fun before e after cut => ?_, fun im rest => ?_⟩
    · rw [forks before e after cut]
      exact ⟨clients s member q at_0 before e after cut, ClientWaits.handing⟩
    · rw [rest] at paired
      exact paired.2

end Runs

/-! ## A failed accept -/

/-- `accept` fails, the read on -1 fails, and a process is forked. -/
theorem failed_accept_forks (p : Platform) (xsb : Str → Option Str → QueryEnd → Prop) :
    ∃ past last q, (server p xsb).Run (startListening [] true) none past last ∧
      last.procs[0]? = some q ∧ last.procs.length = 2 ∧
      q.own = [⟨.accept, -1⟩, ⟨.read (-1) maxBuff, none⟩, ⟨.fork, .parent⟩] := by
  have accepts : Steps (serve p (startListening [] true)) [⟨.accept, -1⟩, ⟨.read (-1) maxBuff, none⟩]
      (.call .fork (afterFork p { parentImage [] (-1) with socketMsg := [] })) :=
    .call (.call (.refl _))
  have answers : (server p xsb).Answers none [⟨.accept, -1⟩, ⟨.read (-1) maxBuff, none⟩] none :=
    .cons rfl rfl (.cons rfl rfl .nil)
  have begins : (server p xsb).Reachable (startListening [] true) none
      ((server p xsb).init (startListening [] true) none) := .init
  have listener : ((server p xsb).init (startListening [] true) none).procs[0]? =
      some ⟨[], [], serve p (startListening [] true)⟩ := rfl
  obtain ⟨t, reach, -, length, at_0, -, -⟩ := begins.advance listener accepts answers
  obtain ⟨u, reach', -, length', at_0', -⟩ :=
    reach.spawn at_0 rfl (r := Fork.parent) ⟨Fork.noConfusion, rfl⟩ rfl
  obtain ⟨past, run⟩ := reach'.run
  refine ⟨past, u, _, run, at_0', by rw [length', length]; rfl, rfl⟩

/-- The session that is forked for no one. -/
theorem forked_for_no_one :
    ∃ past last, (server villagePlatform fun _ _ _ => False).Run (startListening [] true) none past
      last ∧ ¬ ForksOnlyForClients past last := by
  obtain ⟨past, last, q, run, at_0, -, own⟩ := failed_accept_forks villagePlatform fun _ _ _ => False
  refine ⟨past, last, run, fun forks => ?_⟩
  have waits := ((forks last (by simp) q at_0).1 [⟨.accept, -1⟩, ⟨.read (-1) maxBuff, none⟩]
    ⟨.fork, .parent⟩ [] own).mp ⟨_, rfl⟩
  obtain ⟨before, fd, bytes, cut, -⟩ := waits
  rw [← List.nil_append [_, _]] at cut
  cases (List.append_inj' cut rfl).2

theorem forksOnlyForClients_iff_village :
    ∃ past last, (server villagePlatform fun _ _ _ => False).Run (startListening [] true) none past
      last ∧ (ForksOnlyForClients past last ↔ NothingFails past last) := by
  obtain ⟨past, last, -, run, -⟩ := failed_accept_forks villagePlatform fun _ _ _ => False
  exact ⟨past, last, run, forksOnlyForClients_iff run⟩

end RepositoryManager
