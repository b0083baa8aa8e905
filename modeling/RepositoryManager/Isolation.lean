import RepositoryManager.Lib.SharedCell
import RepositoryManager.Decision
import RepositoryManager.Exchanges
import RepositoryManager.Schedules

/-! # The program file of different sessions

All processes write and load the same file. A session writes it once, when its client
is admitted, and every query loads what is there by then. So a session is isolated
from the others exactly while nobody else has left another program in the file.
-/

namespace RepositoryManager

open ByteString Interaction Interaction.Prog ProcessPool ProcessPool.System SharedCell

/-! ## The file as a cell -/

/-- What a call leaves in the program file. -/
def fileEffect : Event Call Reply → Option World
  | ⟨.saveBinder text, isOpen⟩ => if isOpen then some (some text) else none
  | ⟨.removeBinder, _⟩ => some none
  | _ => none

theorem answered_next {xsb : Str → Option Str → QueryEnd → Prop} {file file' : World} {c : Call}
    {r : Reply c} (allowed : answered xsb file c r file') :
    file' = (fileEffect ⟨c, r⟩).getD file := by
  cases c with
  | saveBinder text =>
      cases r with
      | false => exact allowed
      | true => exact allowed
  | removeBinder => exact allowed
  | popen cmd => exact allowed.2.2
  | fork => exact allowed.2
  | read fd len =>
      cases r with
      | none => exact allowed
      | some bytes => exact allowed.2
  | _ => exact allowed

/-- The program file is the cell of the server. -/
def programFile (p : Platform) (xsb : Str → Option Str → QueryEnd → Prop) : Cell (server p xsb) where
  effect := fileEffect
  next := answered_next
  twin_effect := by
    intro c r r' double
    cases c with
    | fork =>
        cases r with
        | parent => rfl
        | _ => cases double
    | _ => cases double

theorem blind_of_not_popen {p : Platform} {xsb : Str → Option Str → QueryEnd → Prop} {c : Call}
    {r : Reply c} (notQuery : ∀ cmd, c ≠ .popen cmd) : Blind (server p xsb) c r := by
  rintro file other ⟨file', allowed⟩
  cases c with
  | popen cmd => exact absurd rfl (notQuery cmd)
  | fork => exact ⟨other, allowed.1, rfl⟩
  | read fd len =>
      cases r with
      | none => exact ⟨other, rfl⟩
      | some bytes => exact ⟨other, allowed.1, rfl⟩
  | _ => exact ⟨_, rfl⟩

/-! ## What a session writes -/

variable {p : Platform} {xsb : Str → Option Str → QueryEnd → Prop} {policy : Str}
  {socketInit : Bool} {file : World} {s : Pool Call Reply Mode World}

theorem Listens.no_effect {e : Event Call Reply} (listens : Listens e) : fileEffect e = none := by
  obtain ⟨c, r⟩ := e
  cases c with
  | saveBinder | removeBinder => exact listens.elim
  | _ => rfl

theorem Serves.no_effect {fd : Int} {e : Event Call Reply} (serves : Serves fd e) :
    fileEffect e = none := by
  obtain ⟨c, r⟩ := e
  cases c with
  | saveBinder | removeBinder => exact serves.elim
  | _ => rfl

/-- Before a query, the calls of a process are some that leave the file alone, an
    admission, and again some that leave it alone. -/
theorem own_before_query
    (reach : (server p xsb).Reachable (startListening policy socketInit) file s) {i : Nat}
    {before later : List (Nat × Event Call Reply)} {cmd : Str} {reply : Option Str × QueryEnd}
    (cut : s.trace = before ++ (i, ⟨.popen cmd, reply⟩) :: later) :
    ∃ (session : Session p policy) (quiet tail : History),
      callsOf i before = quiet ++ session.admission.history ++ tail ∧
      (∀ e ∈ quiet, fileEffect e = none) ∧ ∀ e ∈ tail, fileEffect e = none := by
  obtain ⟨same, bounded⟩ := reach.traced
  have inside : i < s.procs.length := bounded (i, ⟨.popen cmd, reply⟩) (by simp [cut])
  have found := List.getElem?_eq_getElem inside
  have own : s.procs[i].own = callsOf i before ++ ⟨.popen cmd, reply⟩ :: callsOf i later := by
    rw [same i _ found, cut, callsOf_append]
    simp [callsOf]
  have listened := inherited_listens reach _ (List.getElem_mem inside)
  have life := (life_of_runs (reach.runs _ (List.getElem_mem inside))).1
  have whole : s.procs[i].history =
      (s.procs[i].inherited ++ callsOf i before) ++ ⟨.popen cmd, reply⟩ :: callsOf i later := by
    rw [Process.history, own, List.append_assoc]
  obtain ⟨session, reads, begun, later', query, rest, past, isRead, -, -, run⟩ :=
    life.cut_answer whole id (by simp) (by simp) fun fd => id
  have notForked : (⟨.fork, .child⟩ : Event Call Reply) ∉ s.procs[i].inherited :=
    fun member => listened _ member rfl
  have opened : s.procs[i].inherited ++ callsOf i before =
      (session.before ++ [⟨.accept, session.fd⟩, ⟨.read session.fd maxBuff, session.first⟩]) ++
        ⟨.fork, .child⟩ :: (session.admission.history ++ (session.served ++ (reads ++ begun))) := by
    simp [past, Session.history, Opening.history, Opening.start]
  obtain ⟨now, ofParent, mine⟩ := cut_second notForked opened
  refine ⟨session, now ++ [⟨.fork, .child⟩], session.served ++ (reads ++ begun), by simp [mine], ?_, ?_⟩
  · intro e member
    rcases List.mem_append.mp member with old | new
    · have inParent : e ∈ session.before ++
          [⟨.accept, session.fd⟩, ⟨.read session.fd maxBuff, session.first⟩] := by
        rw [ofParent]
        exact List.mem_append_right _ old
      rcases List.mem_append.mp inParent with listening | start
      · exact (session.listened e listening).no_effect
      · simp only [List.mem_cons, List.not_mem_nil, or_false] at start
        rcases start with rfl | rfl
        · rfl
        · rfl
    · rw [List.mem_singleton.mp new]
      rfl
  · intro e member
    simp only [List.mem_append] at member
    rcases member with served | read | answer
    · exact (session.serving.only e served).no_effect
    · obtain ⟨r, rfl⟩ := isRead e read
      rfl
    · have answers := run.only (answerQuery_only session.im query) e (by simp [answer])
      obtain ⟨c, r⟩ := e
      cases c with
      | saveBinder | removeBinder => exact answers.elim
      | _ => rfl

theorem Admission.lastWrite {im : TransportService} (a : Admission p im) (i : Nat) :
    SharedCell.lastWrite fileEffect (a.history.map fun e => (i, e)) =
      some (i, some (binderText a.policy a.checked)) := by
  rw [Admission.history, List.map_append, lastWrite_append]
  rfl

/-! ## Isolation -/

/-- The program that a session loads for its queries is the policy and the transformed
    clauses of the credential that it has verified itself, and its replies are those it
    could get if no other process did anything. -/
structure Isolated (p : Platform) (xsb : Str → Option Str → QueryEnd → Prop) (policy : Str)
    (file : World) (s : Pool Call Reply Mode World) (i : Nat) : Prop where
  loads : ∀ before cmd loaded ending later,
    s.trace = before ++ (i, ⟨.popen cmd, (loaded, ending)⟩) :: later →
      ∃ c checked, ⟨.note (.verified c checked true), ()⟩ ∈ callsOf i before ∧
        loaded = some (programText policy (checked.certificates.flatMap Certificate.transformedCls))
  alone : ∃ file', (server p xsb).Replay file (alone i s.trace) file'

/-- At each query, the last to write the file was the session, or what was written is
    what the session has written last. -/
def QueriesUndisturbed (s : Pool Call Reply Mode World) (i : Nat) : Prop :=
  ∀ before cmd reply later, s.trace = before ++ (i, ⟨.popen cmd, reply⟩) :: later →
    Undisturbed fileEffect i before

theorem own_program (reach : (server p xsb).Reachable (startListening policy socketInit) file s)
    {i : Nat} {before later : List (Nat × Event Call Reply)} {cmd : Str}
    {reply : Option Str × QueryEnd} (cut : s.trace = before ++ (i, ⟨.popen cmd, reply⟩) :: later) :
    ∃ c checked, ⟨.note (.verified c checked true), ()⟩ ∈ callsOf i before ∧
      lastWrite fileEffect (SharedCell.alone i before) = some (i, some (programText policy
        (checked.certificates.flatMap Certificate.transformedCls))) := by
  obtain ⟨session, quiet, tail, mine, quietBefore, quietAfter⟩ := own_before_query reach cut
  refine ⟨session.admission.credential, session.admission.checked, ?_, ?_⟩
  · simp [mine, Admission.history]
  · have noWrite : ∀ h : History, (∀ e ∈ h, fileEffect e = none) →
        lastWrite fileEffect (h.map fun e => (i, e)) = none := by
      intro h silent
      rw [lastWrite_eq_none]
      intro e member
      obtain ⟨e', inHistory, rfl⟩ := List.mem_map.mp member
      exact silent e' inHistory
    rw [alone_eq_callsOf, mine, List.map_append, List.map_append, lastWrite_append,
      lastWrite_append, noWrite _ quietBefore, noWrite _ quietAfter, session.admission.lastWrite,
      binderText_eq, session.admission.credential_policy.2.2, session.policyKept]
    rfl

/-- A session is isolated exactly when its queries are undisturbed. -/
theorem isolated_iff (reach : (server p xsb).Reachable (startListening policy socketInit) file s)
    (i : Nat) : Isolated p xsb policy file s i ↔ QueriesUndisturbed s i := by
  have finds : ∀ {before cmd reply later}, s.trace = before ++ (i, ⟨.popen cmd, reply⟩) :: later →
      reply.1 = contents fileEffect file before := by
    intro before cmd reply later cut
    rcases (programFile p xsb).replay_allowed reach.replay cut with ⟨_, allowed⟩ | ⟨_, double⟩
    · exact allowed.1
    · cases double
  constructor
  · intro isolated before cmd reply later cut
    obtain ⟨c, checked, -, own⟩ := own_program reach cut
    rw [undisturbed_iff file own, ← finds cut]
    obtain ⟨file', run⟩ := isolated.alone
    have cutAlone : SharedCell.alone i s.trace = SharedCell.alone i before ++
        (i, ⟨.popen cmd, reply⟩) :: SharedCell.alone i later := by
      rw [cut, alone_append, ← List.singleton_append, alone_append, alone_self]
      rfl
    rcases (programFile p xsb).replay_allowed run cutAlone with ⟨_, allowed⟩ | ⟨_, double⟩
    · have loaded : reply.1 = contents fileEffect file (SharedCell.alone i before) := allowed.1
      rw [loaded, contents, own]
      rfl
    · cases double
  · intro undisturbed
    refine ⟨fun before cmd loaded ending later cut => ?_,
      (programFile p xsb).replay_alone reach.replay i fun before c r later cut => ?_⟩
    · obtain ⟨c, checked, verified, own⟩ := own_program reach cut
      exact ⟨c, checked, verified, (finds cut).trans ((undisturbed_iff file own).mp
        (undisturbed before cmd (loaded, ending) later cut))⟩
    · cases c with
      | popen cmd =>
          right
          obtain ⟨_, checked, -, own⟩ := own_program reach cut
          have same := (undisturbed_iff file own).mp (undisturbed before cmd r later cut)
          change contents fileEffect file before = contents fileEffect file (SharedCell.alone i before)
          rw [same, contents, own]
          rfl
      | _ => exact .inl (blind_of_not_popen (by simp))

/-! ## Runs -/

theorem Admission.verified_mem {im : TransportService} (a : Admission p im) {c checked : Credential}
    (member : (⟨.note (.verified c checked true), ()⟩ : Event Call Reply) ∈ a.history) :
    checked = a.checked := by
  have notRead : (⟨.note (.verified c checked true), ()⟩ : Event Call Reply) ∉ a.answers := by
    intro read
    obtain ⟨r, same⟩ := a.reads _ read
    cases same
  simp only [Admission.history, List.mem_append, List.mem_cons, List.not_mem_nil, or_false,
    notRead] at member
  rcases member with (none | none | none | same | none | none) | none | none | none
  · cases none
  · cases none
  · cases none
  · cases same
    rfl
  all_goals cases none

theorem openingTrace_verified {fd : Int} {first : Str} {child i : Nat}
    {a : Admission p (childImage policy fd first)} {c checked : Credential}
    (member : (i, (⟨.note (.verified c checked true), ()⟩ : Event Call Reply)) ∈ openingTrace child a) :
    i = child ∧ checked = a.checked := by
  rcases List.mem_append.mp member with opens | admits
  · simp only [List.mem_cons, List.not_mem_nil, or_false, Prod.mk.injEq] at opens
    rcases opens with ⟨-, none⟩ | ⟨-, none⟩ | ⟨-, none⟩ | ⟨-, none⟩ | ⟨-, none⟩
    all_goals cases none
  · obtain ⟨e, inHistory, same⟩ := List.mem_map.mp admits
    cases same
    exact ⟨rfl, a.verified_mem inHistory⟩

theorem alice_asks_after_bob :
    ∃ (t : Pool Call Reply Mode World) (before later : List (Nat × Event Call Reply)),
      (server villagePlatform fun _ _ _ => True).Reachable (startListening [] true) none t ∧
      t.trace = before ++ (1, ⟨.popen (cstr (queryCommand (readQuery alice))),
        (some (binderText (userPolicy bob) (userChecked bob)), .finished (some twiceYes))⟩) :: later ∧
      before = openingTrace 1 (userAdmission alice_known 4) ++
        openingTrace 2 (userAdmission bob_known 5) ++ [(1, ⟨.read 4 maxRead, some readRequest⟩)] := by
  obtain ⟨s, reach, ⟨q, at_1, waits⟩, world, trace⟩ := alice_then_bob fun _ _ _ => True
  obtain ⟨t, reach', -, trace'⟩ := ask_user_query reach at_1 alice_known waits alice_generates trivial
    executeQueryProc_twiceYes
  rw [world, trace] at trace'
  exact ⟨t, _, _, reach', by rw [trace']; simp [oneRead, answerHistory]; rfl, rfl⟩

theorem isolated_iff_alice : ∃ (t : Pool Call Reply Mode World) (before later : _)
    (cmd : Str) (reply : Option Str × QueryEnd),
    t.trace = before ++ (1, ⟨.popen cmd, reply⟩) :: later ∧
    (Isolated villagePlatform (fun _ _ _ => True) [] none t 1 ↔ QueriesUndisturbed t 1) := by
  obtain ⟨t, before, later, reach, cut, -⟩ := alice_asks_after_bob
  exact ⟨t, before, later, _, _, cut, isolated_iff reach 1⟩

/-- The query of alice loads the program of bob. -/
theorem alice_loads_bob : ¬ ∀ t : Pool Call Reply Mode World,
    (server villagePlatform fun _ _ _ => True).Reachable (startListening [] true) none t →
      ∀ i, Isolated villagePlatform (fun _ _ _ => True) [] none t i := by
  intro always
  obtain ⟨t, before, later, reach, cut, opened⟩ := alice_asks_after_bob
  obtain ⟨c, checked, verified, loaded⟩ := (always t reach 1).loads _ _ _ _ _ cut
  have ofAlice : checked = userChecked alice := by
    rw [mem_callsOf, opened] at verified
    rcases List.mem_append.mp verified with opens | reads
    · rcases List.mem_append.mp opens with first | second
      · exact (openingTrace_verified first).2
      · cases (openingTrace_verified second).1
    · cases (Prod.mk.inj (List.mem_singleton.mp reads)).2
  subst ofAlice
  have different : binderText (userPolicy bob) (userChecked bob) ≠ programText []
      ((userChecked alice).certificates.flatMap Certificate.transformedCls) := by decide +kernel
  exact different (Option.some.inj loaded)

end RepositoryManager
