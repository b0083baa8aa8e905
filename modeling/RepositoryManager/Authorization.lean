import RepositoryManager.Decision
import RepositoryManager.Schedules

/-! # Authorization

Whoever is told `granted` was admitted: the process that writes it has built the
credential from the first message of that connection, verified it, had a fresh
challenge signed with its key, written its clauses, and executed a query in the name
of its key. The flags that lead there live in the child alone.
-/

namespace RepositoryManager

open ByteString Interaction Interaction.Prog ProcessPool

theorem generateQuery_prefix {cred : Credential} {msg query : Str}
    (generated : generateQuery (some cred) msg = some query) (nonempty : query ≠ []) :
    "allow(".toList ++ cred.keyDigest ++ ",".toList <+: query := by
  unfold generateQuery at generated
  split at generated
  · split at generated
    · simp only [Option.bind_eq_bind, Option.bind_some, Option.pure_def, Option.some.injEq]
        at generated
      subst generated
      exact ⟨_, (List.append_assoc _ _ _).symm.trans rfl⟩
    · cases generated
      exact absurd rfl nonempty
  · cases generated
    exact absurd rfl nonempty

theorem challenge_not_granted (rand : Nat → Nat) (draws : Nat) :
    ¬ grantS <:+: challengeMsg (generateChallenge rand draws).1 := by
  intro granted
  have member : 'g' ∈ challengeMsg (generateChallenge rand draws).1 :=
    granted.subset (by decide)
  have drawn : ∀ n, challengeChar n ≠ 'g' := by
    intro n
    unfold challengeChar
    split
    · decide
    · split
      · decide
      · split <;> decide
  simp only [challengeMsg, generateChallenge, List.mem_append, List.mem_map] at member
  rcases member with ((((fixed | fixed) | ⟨i, -, same⟩) | fixed) | fixed) | fixed
  · exact absurd fixed (by decide)
  · exact absurd fixed (by decide)
  · exact drawn _ same
  · exact absurd fixed (by decide)
  · exact absurd fixed (by decide)
  · exact absurd fixed (by decide)

/-- Authorization safety. A reply with `granted` in it is the end of a session: of a
    connection whose first message gave the credential that was verified, authenticated
    and written, and of a query in its name that was executed and returned true. The
    process that listens never processes requests, and starts every child with an empty
    service. -/
theorem granted_only_when_authorized {p : Platform} {xsb : Str → Option Str → QueryEnd → Prop}
    {policy : Str} {socketInit : Bool} {file : World} {s : Pool Call Reply Mode World}
    (reach : (server p xsb).Reachable (startListening policy socketInit) file s)
    {proc : Process Call Reply Mode} (member : proc ∈ s.procs) :
    (∀ past fd text n later, proc.history = past ++ ⟨.write fd text, n⟩ :: later →
      grantS <:+: text →
      ∃ (session : Session p policy) (reads : History) (query : Str)
        (reply : Option Str × QueryEnd),
        fd = session.fd ∧ (∀ e ∈ reads, Reads fd e) ∧
        past = session.history ++ (reads ++ [⟨.popen (cstr (queryCommand query)), reply⟩,
          ⟨.note (.executed query true), ()⟩]) ∧
        "allow(".toList ++ getKeyDigest p.openssl session.admission.credential.pubKey ++
          ",".toList <+: query) ∧
    ∀ im, proc.rest = .ret (.listening im) → im.processingRequests = false ∧ im.ss = .empty := by
  obtain ⟨life, stage⟩ := life_of_runs (reach.runs proc member)
  refine ⟨fun past fd text n later cut granted => ?_, fun im listens => ?_⟩
  · obtain ⟨session, reads, begun, later', query, rest, rfl, isRead, -, generated, run⟩ :=
      life.cut_answer cut id nofun nofun fun f checks =>
        challenge_not_granted _ _ (checks.2 ▸ granted)
    obtain ⟨nonempty, reply, rfl⟩ := grant_of_answerQuery run granted
    have wrote := run.only (answerQuery_only session.im query) ⟨.write fd text, n⟩ (by simp)
    obtain rfl : fd = session.fd := wrote.1.trans session.sameSocket
    refine ⟨session, reads, query, reply, rfl, isRead, rfl, ?_⟩
    rw [← session.admission.credential_policy.2.1]
    exact generateQuery_prefix generated nonempty
  · have idle := (stage _ listens).1
    exact ⟨idle.notProcessing, idle.service⟩

theorem granted_only_when_authorized_alice :
    ∃ (s : Pool Call Reply Mode World) (proc : Process Call Reply Mode) (past : History) (n : Int),
      proc ∈ s.procs ∧ proc.history = past ++ [⟨.write 4 (replyMsg grantS), n⟩] ∧
      ∃ session : Session villagePlatform [], session.fd = 4 := by
  obtain ⟨s₁, reach₁, -, -, -, ⟨q, at_1, -, waits⟩, -, -⟩ :=
    open_user_session .init (atHome_init villagePlatform (fun _ _ _ => True) [] none) alice_known
      (by decide +kernel) 4 (by decide)
  obtain ⟨s₂, reach₂, ⟨q', at_2, inherited, own'⟩, -⟩ :=
    ask_user_query reach₁ at_1 alice_known waits alice_generates trivial executeQueryProc_twiceYes
  have member : q' ∈ s₂.procs := List.mem_of_getElem? at_2
  have cut : q'.history = (q.history ++ (oneRead 4 readRequest ++
      [⟨.popen (cstr (queryCommand (readQuery alice))), (s₁.world, .finished (some twiceYes))⟩,
        ⟨.note (.executed (readQuery alice) true), ()⟩])) ++
      ⟨.write 4 (replyMsg grantS), (1 : Int)⟩ :: [] := by
    simp [Process.history, inherited, own', answerHistory]
  obtain ⟨session, _, _, _, same, _⟩ := (granted_only_when_authorized reach₂ member).1 _ _ _ _ _ cut
    ((find_isSome_iff _ _).mp (by decide +kernel))
  exact ⟨s₂, q', _, _, member, cut, session, same.symm⟩

end RepositoryManager
