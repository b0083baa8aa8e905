import RepositoryManager.Lib.ProcessPool
import RepositoryManager.Sessions

/-! # The server as a pool of processes

The loops of the server, the file that all its processes share, and `fork`. The
history of any process of any run is one of three: the process listens, it checks
the client it was forked for, or it serves a client that it has checked. The image
that the listening process copies into its children never changes.
-/

namespace RepositoryManager

open ByteString Interaction Interaction.Prog ProcessPool

/-! ## The system -/

/-- The program file, for all processes of the server. -/
abbrev World := Option Str

/-- The replies the world gives. A write leaves the new text when the file could be
    opened; XSB finds the file as it is, and ends in a way that `xsb` admits.

    That XSB loads `rlf_tmp.P` itself is taken for granted: its `consult` loads the compiled
    `rlf_tmp.xwam` in its place where that is newer, or where `rlf_tmp.P` is gone. -/
def answered (xsb : Str → Option Str → QueryEnd → Prop) :
    World → (c : Call) → Reply c → World → Prop
  | file, .saveBinder text, isOpen, file' => file' = if isOpen then some text else file
  | _, .removeBinder, _, file' => file' = none
  | file, .popen cmd, (loaded, ending), file' =>
      loaded = file ∧ xsb cmd file ending ∧ file' = file
  | file, .fork, cid, file' => cid ≠ .child ∧ file' = file
  | file, .read _ len, some bytes, file' => bytes.length ≤ len ∧ file' = file
  | file, _, _, file' => file' = file

/-- The server on a platform, with XSB as a relation between the command, the program
    file and the end of the query. -/
def server (p : Platform) (xsb : Str → Option Str → QueryEnd → Prop) :
    System Call Reply Mode World :=
  { body := serve p
    allowed := answered xsb
    twin := fun c r =>
      match c, r with
      | .fork, .parent => some .child
      | _, _ => none }

/-! ## The listening process -/

/-- The image of the process that listens, at each pass of its loop. -/
structure Idle (policy : Str) (im : TransportService) : Prop where
  policy : im.policy = policy
  noMessage : im.socketMsg = []
  notProcessing : im.processingRequests = false
  service : im.ss = .empty
  draws : im.draws = 0

/-- A connection that was accepted and handed to a child. -/
structure Opening (policy : Str) where
  before : History
  fd : Int
  first : Option Str
  /-- The image in which the child calls `processMsg`. -/
  forked : TransportService
  listened : ∀ e ∈ before, Listens e
  policyKept : forked.policy = policy
  message : forked.socketMsg = cstr (first.getD [])
  connected : forked.clientSocketId = fd
  notProcessing : forked.processingRequests = false
  service : forked.ss = .empty
  draws : forked.draws = 0

/-- From `accept` to the fork, as the child has it. -/
def Opening.start {policy : Str} (o : Opening policy) : History :=
  [⟨.accept, o.fd⟩, ⟨.read o.fd maxBuff, o.first⟩, ⟨.fork, .child⟩]

theorem checkIdle_only (im : TransportService) : (checkIdle im).Only Listens := by
  unfold checkIdle
  split
  · exact fun _ => ⟨trivial, trivial⟩
  · trivial

theorem steps_checkIdle {policy : Str} {im : TransportService} {h : History} {rest : Server Mode}
    (run : Steps (checkIdle im) h rest) (idle : Idle policy im) :
    (∀ e ∈ h, Listens e) ∧ ∀ m, rest = .ret m → ∃ im', m = .listening im' ∧ Idle policy im' := by
  refine ⟨run.only (checkIdle_only im), ?_⟩
  rintro m rfl
  unfold checkIdle at run
  split at run
  · obtain ⟨elapsed, _, rfl, done⟩ := returns_call.mp run
    exact ⟨_, (returns_ret.mp done).2, idle.policy, idle.noMessage, idle.notProcessing, idle.service,
      idle.draws⟩
  · exact ⟨im, (returns_ret.mp run).2, idle⟩

/-- A pass of the listening loop, as far as it got: the process is still the one that
    listens, or it is the child for the connection that was accepted. -/
theorem steps_acceptClient {p : Platform} {policy : Str} {im : TransportService}
    (idle : Idle policy im) {past now : History} (listened : ∀ e ∈ past, Listens e)
    {rest : Server Mode} (run : Steps (acceptClient p im) now rest) :
    ((∀ e ∈ now, Listens e) ∧ ∀ m, rest = .ret m → ∃ im', m = .listening im' ∧ Idle policy im') ∨
    ∃ (o : Opening policy) (checks : History) (q : Server TransportService), o.before = past ∧
      now = o.start ++ checks ∧ Steps (processMsg p o.forked) checks q ∧
      rest = (q >>= fun im' => .ret (.serving im')) := by
  rcases steps_call.mp run with ⟨rfl, rfl⟩ | ⟨fd, _, rfl, accepted⟩
  · exact .inl ⟨by simp, fun _ same => (call_ne_ret same).elim⟩
  change Steps (if fd ≠ 0 then _ else _) _ rest at accepted
  split at accepted
  · rcases steps_call.mp accepted with ⟨rfl, rfl⟩ | ⟨first, _, rfl, forks⟩
    · exact .inl ⟨by simp [Listens], fun _ same => (call_ne_ret same).elim⟩
    rcases steps_call.mp forks with ⟨rfl, rfl⟩ | ⟨cid, h, rfl, forked⟩
    · exact .inl ⟨by simp [Listens], fun _ same => (call_ne_ret same).elim⟩
    have forked : Steps (afterFork p { im with
      clientSocketId := fd, socketMsg := im.socketMsg ++ cstr (first.getD []) } cid) h rest := forked
    cases cid with
    | child =>
        refine .inr ⟨⟨past, fd, first, { im with
            clientSocketId := fd
            socketMsg := im.socketMsg ++ cstr (first.getD [])
            children := im.children + 1 }, listened, idle.policy, ?_, rfl, idle.notProcessing,
          idle.service, idle.draws⟩, ?_⟩
        · simp only [idle.noMessage, List.nil_append]
        · rcases steps_bind forked with ⟨q, inside, rfl⟩ | ⟨im', checks, _, rfl, done, last⟩
          · exact ⟨h, q, rfl, rfl, inside, rfl⟩
          · obtain ⟨rfl, rfl⟩ := steps_ret.mp last
            exact ⟨checks, .ret im', rfl, by simp [Opening.start], done, rfl⟩
    | parent =>
        obtain ⟨only, next⟩ := steps_checkIdle forked
          ⟨idle.policy, rfl, idle.notProcessing, idle.service, idle.draws⟩
        exact .inl ⟨by simpa [Listens] using only, next⟩
    | failed =>
        obtain ⟨only, next⟩ := steps_checkIdle forked
          ⟨idle.policy, rfl, idle.notProcessing, idle.service, idle.draws⟩
        exact .inl ⟨by simpa [Listens] using only, next⟩
  · obtain ⟨only, next⟩ := steps_checkIdle accepted
      ⟨idle.policy, idle.noMessage, idle.notProcessing, idle.service, idle.draws⟩
    exact .inl ⟨by simpa [Listens] using only, next⟩

/-! ## The life of a process -/

/-- A connection whose client was checked, up to the last request that was answered. -/
structure Connection (p : Platform) (policy : Str) extends Opening policy where
  checks : History
  im : TransportService
  served : History
  checked : Returns (processMsg p forked) checks im
  serving : Served im served

def Opening.history {policy : Str} (o : Opening policy) : History := o.before ++ o.start

def Connection.history {p : Platform} {policy : Str} (c : Connection p policy) : History :=
  c.toOpening.history ++ c.checks ++ c.served

/-- What the history of a process of the server can be. -/
inductive Life (p : Platform) (policy : Str) : History → Prop where
  /-- The process listens, or has ended after it listened. -/
  | listening {h} (only : ∀ e ∈ h, Listens e ∨ e = ⟨.removeBinder, ()⟩) : Life p policy h
  /-- A child is inside `processMsg`. -/
  | checking {checks rest} (o : Opening policy) (run : Steps (processMsg p o.forked) checks rest) :
      Life p policy (o.history ++ checks)
  /-- A child is in the loop over the requests, or has ended. -/
  | serving {now rest} (c : Connection p policy) (run : Steps (processRequest c.im) now rest) :
      Life p policy (c.history ++ now)

/-- The invariant of the loops: what a process has done when it begins a pass. -/
def Stage (p : Platform) (policy : Str) (past : History) : Mode → Prop
  | .listening im => Idle policy im ∧ ∀ e ∈ past, Listens e
  | .serving im => ∃ c : Connection p policy, past = c.history ∧ c.im = im
  | .exited => Life p policy past

theorem startListening_stage (p : Platform) (policy : Str) (socketInit : Bool) :
    Stage p policy [] (startListening policy socketInit) := by
  cases socketInit <;> exact ⟨⟨rfl, rfl, rfl, rfl, rfl⟩, by simp⟩

theorem Opening.history_append {policy : Str} (o : Opening policy) (h : History) :
    o.before ++ (o.start ++ h) = o.history ++ h := by
  rw [Opening.history, List.append_assoc]

theorem Opening.history_events {policy : Str} (o : Opening policy) :
    ∀ e ∈ o.history, Listens e ∨ e = ⟨.fork, .child⟩ := by
  intro e member
  rcases List.mem_append.mp member with before | start
  · exact .inl (o.listened e before)
  · simp only [Opening.start, List.mem_cons, List.not_mem_nil, or_false] at start
    rcases start with rfl | rfl | rfl
    · exact .inl trivial
    · exact .inl trivial
    · exact .inr rfl

section Pass

variable {p : Platform} {policy : Str} {past now : History} {rest : Server Mode}

theorem steps_stopped {im : TransportService} (listened : ∀ e ∈ past, Listens e)
    (stopped : im.socketListening = false) (run : Steps (serve p (.listening im)) now rest) :
    (∀ e ∈ past ++ now, Listens e ∨ e = ⟨.removeBinder, ()⟩) ∧ ∀ m, rest = .ret m → m = .exited := by
  have ends : serve p (.listening im) = .call .removeBinder fun _ => .ret .exited := by
    simp only [serve, stopped, Bool.false_eq_true, if_false]
    rfl
  rw [ends] at run
  rcases steps_call.mp run with ⟨rfl, rfl⟩ | ⟨_, _, rfl, done⟩
  · refine ⟨fun e member => ?_, fun m same => (call_ne_ret same).elim⟩
    rw [List.append_nil] at member
    exact .inl (listened e member)
  · obtain ⟨rfl, rfl⟩ := steps_ret.mp done
    refine ⟨fun e member => ?_, fun m same => ?_⟩
    · exact (List.mem_append.mp member).imp (listened e) List.mem_singleton.mp
    · cases same
      rfl

theorem steps_listenOnce {im : TransportService} (idle : Idle policy im)
    (listened : ∀ e ∈ past, Listens e) (listening : im.socketListening = true)
    (run : Steps (serve p (.listening im)) now rest) :
    ((∀ e ∈ past ++ now, Listens e) ∧
      ∀ m, rest = .ret m → ∃ im', m = .listening im' ∧ Idle policy im') ∨
    ∃ (o : Opening policy) (checks : History) (q : Server TransportService),
      past ++ now = o.history ++ checks ∧ Steps (processMsg p o.forked) checks q ∧
      rest = (q >>= fun im' => .ret (.serving im')) := by
  have goes : serve p (.listening im) = acceptClient p im := by
    simp [serve, listening, listenOnce, idle.notProcessing]
  rw [goes] at run
  rcases steps_acceptClient idle listened run with
    ⟨only, next⟩ | ⟨o, checks, q, rfl, rfl, checking, rfl⟩
  · exact .inl ⟨fun e member => (List.mem_append.mp member).elim (listened e) (only e), next⟩
  · exact .inr ⟨o, checks, q, o.history_append checks, checking, rfl⟩

theorem steps_listening {im : TransportService} (idle : Idle policy im)
    (listened : ∀ e ∈ past, Listens e) (listening : im.socketListening = true)
    (run : Steps (serve p (.listening im)) now rest) :
    Life p policy (past ++ now) ∧ ∀ m', rest = .ret m' → Stage p policy (past ++ now) m' := by
  rcases steps_listenOnce idle listened listening run with
    ⟨all, next⟩ | ⟨o, checks, q, whole, checking, rfl⟩
  · refine ⟨.listening fun e member => .inl (all e member), fun m' same => ?_⟩
    obtain ⟨im', rfl, idle'⟩ := next m' same
    exact ⟨idle', all⟩
  · rw [whole]
    refine ⟨.checking o checking, fun m' same => ?_⟩
    cases q with
    | call c k => cases same
    | ret im' =>
        cases same
        exact ⟨⟨o, checks, im', [], checking, .none⟩, by simp [Connection.history], rfl⟩

theorem steps_serving (c : Connection p policy) (run : Steps (serve p (.serving c.im)) now rest) :
    Life p policy (c.history ++ now) ∧
      ∀ m', rest = .ret m' → Stage p policy (c.history ++ now) m' := by
  obtain ⟨q, inside⟩ : ∃ q, Steps (processRequest c.im) now q := by
    rcases steps_bind run with ⟨q, inside, -⟩ | ⟨⟨again, im'⟩, h, _, rfl, answered, last⟩
    · exact ⟨q, inside⟩
    · obtain ⟨rfl, -⟩ := steps_ret.mp last
      exact ⟨_, by simpa using answered⟩
  refine ⟨.serving c inside, ?_⟩
  rintro m' rfl
  obtain ⟨⟨again, im'⟩, h, _, rfl, answered, last⟩ := returns_bind.mp run
  obtain ⟨rfl, rfl⟩ := returns_ret.mp last
  cases again with
  | false =>
      rw [List.append_nil]
      exact .serving c answered
  | true =>
      cases processRequest_again answered
      exact ⟨{ c with served := c.served ++ h, serving := c.serving.pass answered },
        by simp [Connection.history], rfl⟩

/-- One pass, as far as it got: the history is the life of a process, and a pass that is
    finished keeps the invariant. -/
theorem Stage.steps {m : Mode} (stage : Stage p policy past m) (run : Steps (serve p m) now rest) :
    Life p policy (past ++ now) ∧ ∀ m', rest = .ret m' → Stage p policy (past ++ now) m' := by
  cases m with
  | listening im =>
      obtain ⟨idle, listened⟩ := stage
      cases listening : im.socketListening with
      | false =>
          obtain ⟨only, ends⟩ := steps_stopped listened listening run
          refine ⟨.listening only, fun m' same => ?_⟩
          obtain rfl := ends m' same
          exact .listening only
      | true => exact steps_listening idle listened listening run
  | serving im =>
      obtain ⟨c, rfl, rfl⟩ := stage
      exact steps_serving c run
  | exited =>
      obtain ⟨rfl, rfl⟩ := steps_ret.mp run
      rw [List.append_nil]
      refine ⟨stage, ?_⟩
      rintro m' same
      cases same
      exact stage

end Pass

/-- Where a run of the loops of a process can be. -/
theorem life_of_runs {p : Platform} {policy : Str} {socketInit : Bool} {h : History}
    {rest : Server Mode} (run : Runs (serve p) (startListening policy socketInit) h rest) :
    Life p policy h ∧ ∀ m, rest = .ret m → Stage p policy h m := by
  obtain ⟨past, now, m, rfl, stage, steps⟩ := run.invariant (I := Stage p policy)
    (startListening_stage p policy socketInit) fun stage pass => (stage.steps pass).2 _ rfl
  exact stage.steps steps

/-- What the events of a process are: those of listening, the fork, those of checking a
    client, which find the generator as `srand` left it, and those of serving it. -/
theorem Life.event {p : Platform} {policy : Str} {h : History} (life : Life p policy h) :
    ∀ e ∈ h, Listens e ∨ e = ⟨.removeBinder, ()⟩ ∨ e = ⟨.fork, .child⟩ ∨
      (∃ fd, Checks p fd 0 e) ∨ ∃ fd, Serves fd e := by
  have ofChecks : ∀ (o : Opening policy) {checks rest}, Steps (processMsg p o.forked) checks rest →
      ∀ e ∈ checks, ∃ fd, Checks p fd 0 e := by
    intro o checks rest run e member
    have checks := run.only processMsg_only e member
    rw [o.draws] at checks
    exact ⟨_, checks⟩
  intro e member
  cases life with
  | listening only => exact (only e member).imp_right .inl
  | checking o run =>
      rcases List.mem_append.mp member with opening | checks
      · exact (o.history_events e opening).imp_right fun forked => .inr (.inl forked)
      · exact .inr (.inr (.inr (.inl (ofChecks o run e checks))))
  | serving c run =>
      simp only [Connection.history, List.mem_append] at member
      rcases member with ((opening | checks) | served) | now
      · exact (c.toOpening.history_events e opening).imp_right fun forked => .inr (.inl forked)
      · exact .inr (.inr (.inr (.inl (ofChecks c.toOpening c.checked e checks))))
      · exact .inr (.inr (.inr (.inr ⟨_, c.serving.only e served⟩)))
      · exact .inr (.inr (.inr (.inr ⟨_, run.only (processRequest_only c.im) e now⟩)))

theorem Life.cut_request {p : Platform} {policy : Str} {h past later : History}
    (life : Life p policy h) {e : Event Call Reply} (at_e : h = past ++ e :: later)
    (notListening : ¬ Listens e) (notRemoval : e ≠ ⟨.removeBinder, ()⟩)
    (notForked : e ≠ ⟨.fork, .child⟩) (notChecking : ∀ fd, ¬ Checks p fd 0 e) :
    ∃ (c : Connection p policy) (now later' : History) (rest : Server (Bool × TransportService)),
      past = c.history ++ now ∧ Steps (processRequest c.im) (now ++ e :: later') rest := by
  have inOpening : ∀ o : Opening policy, e ∉ o.history := by
    intro o member
    rcases List.mem_append.mp member with before | start
    · exact notListening (o.listened e before)
    · simp only [Opening.start, List.mem_cons, List.not_mem_nil, or_false] at start
      rcases start with rfl | rfl | rfl
      · exact notListening trivial
      · exact notListening trivial
      · exact notForked rfl
  have inChecks : ∀ (o : Opening policy) {checks rest},
      Steps (processMsg p o.forked) checks rest → e ∉ checks := by
    intro o checks rest run member
    have checks := run.only processMsg_only e member
    rw [o.draws] at checks
    exact notChecking _ checks
  cases life with
  | listening only =>
      rcases only e (by simp [at_e]) with listens | removal
      · exact absurd listens notListening
      · exact absurd removal notRemoval
  | checking o run =>
      obtain ⟨now, -, same⟩ := cut_second (inOpening o) at_e
      exact absurd (by simp [same]) (inChecks o run)
  | serving c run =>
      rw [Connection.history, List.append_assoc, List.append_assoc] at at_e
      obtain ⟨_, rfl, afterOpening⟩ := cut_second (inOpening c.toOpening) at_e
      obtain ⟨_, rfl, afterChecks⟩ := cut_second (inChecks c.toOpening c.checked) afterOpening
      obtain ⟨done, begun, later', rest', serving, rfl, run'⟩ := c.serving.cut run afterChecks
      exact ⟨{ c with served := done, serving }, begun, later', rest', by simp [Connection.history],
        run'⟩

/-! ## Open sessions -/

/-- A connection whose client was admitted, between two requests. -/
structure Session (p : Platform) (policy : Str) extends Opening policy where
  admission : Admission p forked
  im : TransportService
  served : History
  sameService : im.ss = admission.ss
  sameSocket : im.clientSocketId = fd
  serving : Served im served

namespace Session

variable {p : Platform} {policy : Str}

def history (s : Session p policy) : History :=
  s.toOpening.history ++ s.admission.history ++ s.served

/-- The credential that is left in `credPtr`. -/
def credential (s : Session p policy) : Credential := s.admission.checked

theorem credPtr (s : Session p policy) : s.im.ss.credPtr = some s.credential := by
  rw [s.sameService]
  exact s.admission.hasCredential

end Session

theorem Connection.session {p : Platform} {policy : Str} (c : Connection p policy)
    (on : c.im.processingRequests = true) :
    ∃ s : Session p policy, s.history = c.history ∧ s.im = c.im := by
  obtain ⟨a, same, sameSs, sameFd⟩ := processMsg_admits c.checked c.notProcessing on
  exact ⟨{ c.toOpening with
    admission := a, im := c.im, served := c.served, sameService := sameSs
    sameSocket := sameFd.trans c.connected, serving := c.serving },
    by simp only [Session.history, Connection.history, same], rfl⟩

theorem Admission.credential_policy {p : Platform} {im : TransportService} (a : Admission p im) :
    a.checked.pubKey = a.credential.pubKey ∧
      a.checked.keyDigest = getKeyDigest p.openssl a.credential.pubKey ∧
      a.policy.policyStr = im.policy := by
  obtain ⟨policy, set, text⟩ := setPolicy_policy a.trusts
  obtain ⟨_, _, policy', c', done, hasPolicy, text', hasCred, pubKey, keyDigest, -, -⟩ :=
    verifyCredential_eq p.openssl p.clib p.validateCertTime a.curTimes set a.credential
  cases a.verified.symm.trans done
  cases a.hasPolicy.symm.trans hasPolicy
  cases a.hasCredential.symm.trans hasCred
  exact ⟨pubKey, keyDigest, text'.trans text⟩

/-- An event that is not one of listening, of checking a client, or of reading belongs to
    the answer to a query that was generated from a request of an open session. -/
theorem Life.cut_answer {p : Platform} {policy : Str} {h past later : History}
    (life : Life p policy h) {e : Event Call Reply} (at_e : h = past ++ e :: later)
    (notListening : ¬ Listens e) (notRemoval : e ≠ ⟨.removeBinder, ()⟩)
    (notForked : e ≠ ⟨.fork, .child⟩) (notChecking : ∀ fd, ¬ Checks p fd 0 e) :
    ∃ (s : Session p policy) (reads begun later' : History) (query : Str) (rest : Server Unit),
      past = s.history ++ (reads ++ begun) ∧ (∀ e ∈ reads, Reads s.fd e) ∧
      Open s.im (cstr (bytesOf reads)) ∧
      generateQuery (some s.credential) (cstr (bytesOf reads)) = some query ∧
      Steps (answerQuery s.im query) (begun ++ e :: later') rest := by
  obtain ⟨c, now, later', rest, rfl, run⟩ :=
    life.cut_request at_e notListening notRemoval notForked notChecking
  obtain ⟨reads, tail, cut, isRead, ends⟩ := steps_processRequest run
  have notRead : e ∉ reads := by
    intro member
    obtain ⟨r, rfl⟩ := isRead e member
    exact notListening trivial
  obtain ⟨begun, rfl, rfl⟩ := cut_second notRead cut.symm
  rcases ends with none | close | ⟨query, rest', isOpen, generated, run'⟩
  · simp at none
  · obtain ⟨-, same⟩ := List.append_eq_singleton_iff.mp close |>.resolve_right (by simp)
    cases same
    exact absurd rfl (notChecking c.im.clientSocketId)
  · obtain ⟨s, sameHistory, sameIm⟩ := c.session isOpen.processing
    rw [← sameIm] at isRead isOpen generated run'
    rw [s.credPtr] at generated
    rw [s.sameSocket] at isRead
    exact ⟨s, reads, begun, later', query, rest', by rw [sameHistory], isRead, isOpen, generated,
      run'⟩

/-! ## Traces -/

theorem event_of_trace {p : Platform} {xsb : Str → Option Str → QueryEnd → Prop} {policy : Str}
    {socketInit : Bool} {file : World} {s : Pool Call Reply Mode World}
    (reach : (server p xsb).Reachable (startListening policy socketInit) file s) {i : Nat}
    {e : Event Call Reply} (made : (i, e) ∈ s.trace) :
    ∃ proc, s.procs[i]? = some proc ∧ e ∈ proc.own ∧ Life p policy proc.history := by
  obtain ⟨same, bounded⟩ := reach.traced
  have inside := bounded _ made
  have found := List.getElem?_eq_getElem inside
  refine ⟨s.procs[i], found, ?_, (life_of_runs (reach.runs _ (List.getElem_mem inside))).1⟩
  rw [same i _ found]
  exact System.mem_callsOf.mpr made

end RepositoryManager
