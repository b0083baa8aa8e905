import RepositoryManager.Lib.Typestate
import RepositoryManager.Monitor

/-! # The conversation with a client

What may be said on a connection, and in which order, as an automaton: a credential, a
challenge, a response, and then requests with a reply to each, until the connection is
closed. Every process that is forked for a connection keeps to it.
-/

namespace RepositoryManager

open ByteString Interaction Interaction.Prog ProcessPool Typestate

/-! ## The protocol -/

inductive Phase where
  /-- The first message is read, and nothing is decided. -/
  | connected
  | parsed
  /-- A credential is built from the first message. -/
  | built
  | dated
  /-- The credential is verified. -/
  | trusted
  | challenged
  /-- Some of the response is read. -/
  | responding
  /-- The response is signed with the key of the credential. -/
  | authentic
  /-- The program file was opened for writing, or could not be. -/
  | filed (isOpen : Bool)
  /-- The connection has to be closed. -/
  | refused
  /-- One more message is read, and then the connection is closed. -/
  | unserved
  | leaving
  /-- No part of the next request is read. -/
  | serving
  | requested
  | querying
  /-- The query has returned, and its reply has to be written. -/
  | decided (granted : Bool)
  | closed
  deriving DecidableEq

/-- What may happen on the connection `fd` of a process that has called `rand` `draws`
    times. -/
def conversation (p : Platform) (fd : Int) (draws : Nat) : Protocol Call Reply Phase
  | .connected, ⟨.time, _⟩ => some .parsed
  | .connected, ⟨.read f _, _⟩ => if f = fd then some .leaving else none
  | .parsed, ⟨.note (.built _ _), _⟩ => some .built
  | .parsed, ⟨.close f, _⟩ => if f = fd then some .closed else none
  | .built, ⟨.time, _⟩ => some .dated
  | .dated, ⟨.note (.verified _ _ b), _⟩ => some (if b then .trusted else .refused)
  | .trusted, ⟨.note (.challenged _ _), _⟩ => some .trusted
  | .trusted, ⟨.write f text, _⟩ =>
      if f = fd ∧ text = challengeMsg (generateChallenge p.prng.rand draws).1 then some .challenged
      else none
  | .challenged, ⟨.read f _, _⟩ => if f = fd then some .responding else none
  | .responding, ⟨.read f _, _⟩ => if f = fd then some .responding else none
  | .responding, ⟨.note (.authenticated _ _ challenge b), _⟩ =>
      if challenge = (generateChallenge p.prng.rand draws).1 then
        some (if b then .authentic else .refused)
      else none
  | .authentic, ⟨.saveBinder _, isOpen⟩ => some (.filed isOpen)
  | .filed isOpen, ⟨.note (.binderWritten b), _⟩ =>
      if b then if isOpen then some .serving else none else some .unserved
  | .refused, ⟨.close f, _⟩ => if f = fd then some .closed else none
  | .unserved, ⟨.read f _, _⟩ => if f = fd then some .leaving else none
  | .leaving, ⟨.read f _, _⟩ => if f = fd then some .leaving else none
  | .leaving, ⟨.close f, _⟩ => if f = fd then some .closed else none
  | .serving, ⟨.read f _, _⟩ => if f = fd then some .requested else none
  | .requested, ⟨.read f _, _⟩ => if f = fd then some .requested else none
  | .requested, ⟨.popen _, _⟩ => some .querying
  | .requested, ⟨.write f text, _⟩ => if f = fd ∧ text = replyMsg denyS then some .serving else none
  | .requested, ⟨.close f, _⟩ => if f = fd then some .closed else none
  | .querying, ⟨.note (.executed _ b), _⟩ => some (.decided b)
  | .decided b, ⟨.write f text, _⟩ =>
      if f = fd ∧ text = replyMsg (if b then grantS else denyS) then some .serving else none
  | .closed, ⟨.read f _, _⟩ => if f = fd then some .closed else none
  | .closed, ⟨.close f, _⟩ => if f = fd then some .closed else none
  | _, _ => none

/-! ## The methods -/

section Methods

variable {p : Platform} {im : TransportService} {draws : Nat}

theorem abort_keeps {α : Type} {next : Protocol Call Reply Phase} {phase : Phase}
    {post : α → Phase → Prop} : Keeps next (abort : Server α) phase post :=
  fun r => nomatch r

theorem receive_keeps {next : Protocol Call Reply Phase} {fd : Int} {mark msgBuff : Str}
    {phase last : Phase} (first : ∀ r, next phase ⟨.read fd maxRead, r⟩ = some last)
    (more : ∀ r, next last ⟨.read fd maxRead, r⟩ = some last) :
    Keeps next (receive fd mark msgBuff) phase fun _ phase => phase = last := by
  fun_induction receive fd mark msgBuff generalizing phase with
  | case1 msgBuff ih =>
      intro r
      refine ⟨last, first r, ?_⟩
      cases r with
      | none => rfl
      | some bytes =>
          dsimp only
          split
          · rename_i goesOn
            exact ih bytes goesOn more
          · rfl

theorem executeQuery_keeps {fd : Int} {query : Str} (nonempty : query ≠ []) :
    Keeps (conversation p fd draws) (executeQuery query) .requested
      fun _ phase => phase = .querying := by
  simp only [executeQuery, nonempty, if_false, perform_bind]
  rintro ⟨loaded, ending⟩
  refine ⟨.querying, rfl, ?_⟩
  cases ending with
  | noThread => exact rfl
  | finished out =>
      dsimp only
      cases executeQueryProc out with
      | none => exact abort_keeps
      | some qStats => exact rfl
  | unfinished => exact abort_keeps

theorem answerQuery_keeps (query : Str) :
    Keeps (conversation p im.clientSocketId draws) (answerQuery im query) .requested
      fun _ phase => phase = .serving := by
  by_cases nonempty : query = []
  · subst nonempty
    exact fun n => ⟨.serving, if_pos ⟨rfl, rfl⟩, rfl⟩
  · rw [answerQuery_eq im nonempty]
    refine (executeQuery_keeps nonempty).bind ?_
    rintro b _ rfl
    exact fun _ => ⟨.decided b, rfl, fun _ => ⟨.serving, if_pos ⟨rfl, rfl⟩, rfl⟩⟩

theorem processRequest_serving :
    Keeps (conversation p im.clientSocketId draws) (processRequest im) .serving
      fun result phase => if result.1 then result.2 = im ∧ phase = .serving else phase = .closed := by
  refine (receive_keeps (fun _ => if_pos rfl) fun _ => if_pos rfl).bind ?_
  rintro request _ rfl
  by_cases isOpen : Open im request
  · rw [handleRequest_open isOpen, answerRequest]
    cases generateQuery im.ss.credPtr request with
    | none =>
        intro r
        cases r
    | some query =>
        refine (answerQuery_keeps query).bind ?_
        rintro _ _ rfl
        exact ⟨rfl, rfl⟩
  · obtain ⟨im', -, closes⟩ := handleRequest_closed isOpen
    rw [closes]
    exact fun _ => ⟨.closed, if_pos rfl, rfl⟩

theorem processRequest_unserved (notProcessing : im.processingRequests = false) {phase : Phase}
    (unserved : phase = .connected ∨ phase = .unserved ∨ phase = .closed) :
    Keeps (conversation p im.clientSocketId draws) (processRequest im) phase
      fun result phase => result.1 = false ∧ phase = .closed := by
  have closes : ∀ request, ¬ Open im request := by
    intro request isOpen
    have processing := isOpen.processing
    rw [notProcessing] at processing
    cases processing
  have reading : ∃ last, (last = .leaving ∨ last = .closed) ∧
      Keeps (conversation p im.clientSocketId draws) (receive im.clientSocketId endClientRequestS [])
        phase fun _ phase => phase = last := by
    rcases unserved with rfl | rfl | rfl
    · exact ⟨.leaving, .inl rfl, receive_keeps (fun _ => if_pos rfl) fun _ => if_pos rfl⟩
    · exact ⟨.leaving, .inl rfl, receive_keeps (fun _ => if_pos rfl) fun _ => if_pos rfl⟩
    · exact ⟨.closed, .inr rfl, receive_keeps (fun _ => if_pos rfl) fun _ => if_pos rfl⟩
  obtain ⟨last, isLast, keeps⟩ := reading
  refine keeps.bind ?_
  rintro request _ rfl
  obtain ⟨im', -, same⟩ := handleRequest_closed (closes request)
  rw [same]
  rcases isLast with rfl | rfl
  · exact fun _ => ⟨.closed, if_pos rfl, rfl, rfl⟩
  · exact fun _ => ⟨.closed, if_pos rfl, rfl, rfl⟩

/-- How `processMsg` leaves the image and the connection. -/
structure Checked (im im' : TransportService) (phase : Phase) : Prop where
  socket : im'.clientSocketId = im.clientSocketId
  phase : if im'.processingRequests then phase = .serving
    else phase = .connected ∨ phase = .unserved ∨ phase = .closed

theorem writeBinderFile_keeps (fd : Int) (ss : SecurityService) :
    Keeps (conversation p fd draws) (writeBinderFile ss) .authentic
      fun written phase => ∃ isOpen, phase = .filed isOpen ∧ (written → isOpen) := by
  unfold writeBinderFile
  split
  · exact fun isOpen => ⟨.filed isOpen, rfl, isOpen, rfl, id⟩
  · refine fun isOpen => ⟨.filed isOpen, rfl, ?_⟩
    cases isOpen with
    | false => exact ⟨false, rfl, id⟩
    | true => exact abort_keeps
  · exact fun isOpen => ⟨.filed isOpen, rfl, isOpen, rfl, by simp⟩

theorem authenticateClient_keeps (c : Credential) :
    Keeps (conversation p im.clientSocketId im.draws) (authenticateClient p im c) .trusted
      fun result phase => result.2 = { im with draws := im.draws + maxChallengeBuf } ∧
        phase = if result.1 then .authentic else .refused := by
  rw [authenticateClient_eq]
  refine fun _ => ⟨.trusted, rfl, fun _ => ⟨.challenged, if_pos ⟨rfl, rfl⟩, ?_⟩⟩
  refine (receive_keeps (fun _ => if_pos rfl) fun _ => if_pos rfl).bind ?_
  rintro response _ rfl
  exact fun _ => ⟨_, if_pos rfl, rfl, rfl⟩

theorem admitClient_keeps (c : Credential) (off : im.processingRequests = false) :
    Keeps (conversation p im.clientSocketId im.draws) (admitClient p im c) .trusted (Checked im) := by
  refine (authenticateClient_keeps c).bind ?_
  rintro ⟨b, im'⟩ _ ⟨rfl, rfl⟩
  cases b with
  | false => exact fun _ => ⟨.closed, if_pos rfl, rfl, by simp [off]⟩
  | true =>
      refine (writeBinderFile_keeps _ _).bind ?_
      rintro written _ ⟨isOpen, rfl, opens⟩
      cases written with
      | false => exact fun _ => ⟨.unserved, rfl, rfl, by simp [off]⟩
      | true =>
          obtain rfl : isOpen = true := opens rfl
          exact fun _ => ⟨.serving, rfl, rfl, rfl⟩

theorem processMsg_keeps (off : im.processingRequests = false) :
    Keeps (conversation p im.clientSocketId im.draws) (processMsg p im) .connected (Checked im) := by
  unfold processMsg
  split
  · exact ⟨rfl, by simp [off]⟩
  split
  · exact abort_keeps
  refine fun clock => ⟨.parsed, rfl, ?_⟩
  change Keeps _ (buildClient p im _) _ _
  generalize AstWalker.getCredential _ _ _ _ = result
  match result with
  | none => exact abort_keeps
  | some none => exact fun _ => ⟨.closed, if_pos rfl, rfl, by simp [off]⟩
  | some (some c) =>
      refine fun _ => ⟨.built, rfl, fun curTimes => ⟨.dated, rfl, ?_⟩⟩
      change Keeps _ (decideClient p im c _) _ _
      generalize ((do
        let ss ← im.ss.setPolicy im.policy
        verifyCredential p.openssl p.clib p.validateCertTime curTimes ss (some c)) :
          Option (Bool × SecurityService)) = verdict
      match verdict with
      | none => exact abort_keeps
      | some (false, ss) =>
          exact fun _ => ⟨.refused, rfl, fun _ => ⟨.closed, if_pos rfl, rfl, by simp [off]⟩⟩
      | some (true, ss) =>
          refine fun _ => ⟨.trusted, rfl, ?_⟩
          have admits := @admitClient_keeps p { im with ss } c off
          exact admits.mono fun im' phase checked => ⟨checked.socket, checked.phase⟩

end Methods

/-! ## Runs -/

/-- A process has only listened, or keeps the conversation of its connection. -/
def Converses (p : Platform) (policy : Str) (h : History) (ends : Prop) : Prop :=
  (∀ e ∈ h, Listens e ∨ e = ⟨.removeBinder, ()⟩) ∨
  ∃ (o : Opening policy) (talk : History) (phase : Phase), h = o.history ++ talk ∧
    reached (conversation p o.fd 0) .connected talk = some phase ∧ (ends → phase = .closed)

/-- Where the conversation is when a process begins a pass. -/
def Talks (p : Platform) (policy : Str) (past : History) : Mode → Prop
  | .listening im => Idle policy im ∧ ∀ e ∈ past, Listens e
  | .serving im => ∃ (o : Opening policy) (talk : History) (phase : Phase),
      past = o.history ++ talk ∧ reached (conversation p o.fd 0) .connected talk = some phase ∧
        Checked o.forked im phase
  | .exited => Converses p policy past True

section Runs

variable {p : Platform} {policy : Str} {past now : History} {rest : Server Mode}

theorem talks_listening {im : TransportService} (idle : Idle policy im)
    (listened : ∀ e ∈ past, Listens e) (run : Steps (serve p (.listening im)) now rest) :
    Converses p policy (past ++ now) (rest = .ret .exited) ∧
      ∀ m, rest = .ret m → Talks p policy (past ++ now) m := by
  cases listening : im.socketListening with
  | false =>
      obtain ⟨only, ends⟩ := steps_stopped listened listening run
      refine ⟨.inl only, fun m same => ?_⟩
      obtain rfl := ends m same
      exact .inl only
  | true =>
      rcases steps_listenOnce idle listened listening run with
        ⟨all, next⟩ | ⟨o, checks, q, whole, checking, rfl⟩
      · refine ⟨.inl fun e member => .inl (all e member), fun m same => ?_⟩
        obtain ⟨im', rfl, idle'⟩ := next m same
        exact ⟨idle', all⟩
      · have keeps := @processMsg_keeps p o.forked o.notProcessing
        rw [o.connected, o.draws] at keeps
        obtain ⟨phase, reaches, left⟩ := keeps.steps checking
        rw [whole]
        refine ⟨.inr ⟨o, checks, phase, rfl, reaches, fun ends => ?_⟩, fun m same => ?_⟩
        · cases q with
          | call c k => cases ends
          | ret im' => cases ends
        · cases q with
          | call c k => cases same
          | ret im' =>
              cases same
              exact ⟨o, checks, phase, rfl, reaches, left⟩

theorem talks_serving {im : TransportService} {o : Opening policy} {talk : History} {phase : Phase}
    (reaches : reached (conversation p o.fd 0) .connected talk = some phase)
    (checked : Checked o.forked im phase) (run : Steps (serve p (.serving im)) now rest) :
    Converses p policy (o.history ++ talk ++ now) (rest = .ret .exited) ∧
      ∀ m, rest = .ret m → Talks p policy (o.history ++ talk ++ now) m := by
  have socket : im.clientSocketId = o.fd := checked.socket.trans o.connected
  have keeps : Keeps (conversation p o.fd 0) (serve p (.serving im)) phase fun m phase =>
      (m = .serving im ∧ Checked o.forked im phase) ∨ (m = .exited ∧ phase = .closed) := by
    rw [← socket]
    cases on : im.processingRequests with
    | true =>
        have isServing : phase = .serving := by simpa [on] using checked.phase
        subst isServing
        refine processRequest_serving.bind ?_
        rintro ⟨again, im'⟩ phase result
        cases again with
        | true =>
            obtain ⟨rfl, rfl⟩ := result
            exact .inl ⟨rfl, checked⟩
        | false => exact .inr ⟨rfl, result⟩
    | false =>
        have unserved : phase = .connected ∨ phase = .unserved ∨ phase = .closed := by
          simpa [on] using checked.phase
        refine (processRequest_unserved on unserved).bind ?_
        rintro ⟨again, im'⟩ phase ⟨rfl, rfl⟩
        exact .inr ⟨rfl, rfl⟩
  obtain ⟨last, continues, left⟩ := keeps.steps run
  have whole : reached (conversation p o.fd 0) .connected (talk ++ now) = some last := by
    rw [reached_append, reaches]
    exact continues
  rw [List.append_assoc]
  constructor
  · refine .inr ⟨o, talk ++ now, last, rfl, whole, ?_⟩
    rintro rfl
    rcases left with ⟨goesOn, -⟩ | ⟨-, closed⟩
    · cases goesOn
    · exact closed
  · rintro m rfl
    rcases left with ⟨rfl, still⟩ | ⟨rfl, rfl⟩
    · exact ⟨o, talk ++ now, last, rfl, whole, still⟩
    · exact .inr ⟨o, talk ++ now, .closed, rfl, whole, fun _ => rfl⟩

theorem Talks.steps {m : Mode} (talks : Talks p policy past m) (run : Steps (serve p m) now rest) :
    Converses p policy (past ++ now) (rest = .ret .exited) ∧
      ∀ m', rest = .ret m' → Talks p policy (past ++ now) m' := by
  cases m with
  | listening im => exact talks_listening talks.1 talks.2 run
  | serving im =>
      obtain ⟨o, talk, phase, rfl, reaches, checked⟩ := talks
      exact talks_serving reaches checked run
  | exited =>
      obtain ⟨rfl, rfl⟩ := steps_ret.mp run
      rw [List.append_nil]
      have ended : Converses p policy past True := talks
      refine ⟨by simpa [Converses] using ended, ?_⟩
      rintro m' same
      cases same
      exact talks

end Runs

theorem talks_reached {p : Platform} {xsb : Str → Option Str → QueryEnd → Prop} {policy : Str}
    {socketInit : Bool} {file : World} {s : Pool Call Reply Mode World}
    (reach : (server p xsb).Reachable (startListening policy socketInit) file s)
    {proc : Process Call Reply Mode} (member : proc ∈ s.procs) :
    ∃ past now m, proc.history = past ++ now ∧ Talks p policy past m ∧
      Steps (serve p m) now proc.rest := by
  have start : Talks p policy [] (startListening policy socketInit) := by
    cases socketInit <;> exact ⟨⟨rfl, rfl, rfl, rfl, rfl⟩, by simp⟩
  exact (reach.runs proc member).invariant (I := Talks p policy) start
    fun talks pass => (talks.steps pass).2 _ rfl

theorem alice_admitted : ∃ (s : Pool Call Reply Mode World) (proc : Process Call Reply Mode),
    (server villagePlatform fun _ _ _ => True).Reachable (startListening [] true) none s ∧
    proc ∈ s.procs ∧ proc.own = ⟨.fork, .child⟩ :: (userAdmission alice_known 4).history := by
  obtain ⟨s, reach, -, -, -, ⟨q, at_1, own, -⟩, -, -⟩ :=
    open_user_session .init (atHome_init villagePlatform (fun _ _ _ => True) [] none) alice_known
      (by decide +kernel) 4 (by decide)
  exact ⟨s, q, reach, List.mem_of_getElem? at_1, own⟩

/-- The texts that a history writes. -/
def written : History → List Str
  | [] => []
  | ⟨.write _ text, _⟩ :: h => text :: written h
  | _ :: h => written h

theorem written_append (h h' : History) : written (h ++ h') = written h ++ written h' := by
  induction h with
  | nil => rfl
  | cons e h ih =>
      obtain ⟨c, r⟩ := e
      cases c with
      | write fd text => exact congrArg (text :: ·) ih
      | _ => exact ih

theorem written_quiet {h : History} (quiet : ∀ e ∈ h, ∀ fd text, e.1 ≠ .write fd text) :
    written h = [] := by
  induction h with
  | nil => rfl
  | cons e h ih =>
      have rest := ih fun e' later => quiet e' (List.mem_cons_of_mem _ later)
      have here := quiet e List.mem_cons_self
      obtain ⟨c, r⟩ := e
      cases c with
      | write fd text => exact absurd rfl (here fd text)
      | _ => exact rest

/-- How far a conversation is: before the challenge, before the requests, among the
    requests, or about to end. -/
inductive Part where
  | silent
  | challenged
  | replying
  | ending
  deriving DecidableEq

def Phase.part : Phase → Part
  | .connected | .parsed | .built | .dated | .trusted => .silent
  | .challenged | .responding | .authentic | .filed _ => .challenged
  | .serving | .requested | .querying | .decided _ => .replying
  | .refused | .unserved | .leaving | .closed => .ending

section Events

variable {p : Platform} {fd : Int} {draws : Nat} {phase phase' : Phase}

theorem conversation_write {f n : Int} {text : Str}
    (allowed : conversation p fd draws phase ⟨.write f text, n⟩ = some phase') :
    f = fd ∧
      ((text = challengeMsg (generateChallenge p.prng.rand draws).1 ∧ phase.part = .silent ∧
          phase' = .challenged) ∨
        ∃ b : Bool, text = replyMsg (if b then grantS else denyS) ∧ phase.part = .replying ∧
          phase' = .serving) := by
  cases phase with
  | trusted =>
      obtain ⟨⟨rfl, rfl⟩, same⟩ := Option.ite_none_right_eq_some.mp allowed
      cases same
      exact ⟨rfl, .inl ⟨rfl, rfl, rfl⟩⟩
  | requested =>
      obtain ⟨⟨rfl, rfl⟩, same⟩ := Option.ite_none_right_eq_some.mp allowed
      cases same
      exact ⟨rfl, .inr ⟨false, rfl, rfl, rfl⟩⟩
  | decided b =>
      obtain ⟨⟨rfl, rfl⟩, same⟩ := Option.ite_none_right_eq_some.mp allowed
      cases same
      exact ⟨rfl, .inr ⟨b, rfl, rfl, rfl⟩⟩
  | _ => cases allowed

theorem conversation_quiet {e : Event Call Reply}
    (allowed : conversation p fd draws phase e = some phase') (quiet : ∀ f text, e.1 ≠ .write f text) :
    phase'.part = phase.part ∨ phase'.part = .ending ∨
      phase.part = .challenged ∧ phase'.part = .replying := by
  unfold conversation at allowed
  split at allowed
  -- the verdicts
  case h_6 c after b _ =>
    cases b with
    | false =>
        cases allowed
        exact .inr (.inl rfl)
    | true =>
        cases allowed
        exact .inl rfl
  case h_11 key response challenge b _ =>
    obtain ⟨-, same⟩ := Option.ite_none_right_eq_some.mp allowed
    cases b with
    | false =>
        cases same
        exact .inr (.inl rfl)
    | true =>
        cases same
        exact .inl rfl
  case h_13 isOpen b _ =>
    cases b with
    | false =>
        cases allowed
        exact .inr (.inl rfl)
    | true =>
        cases isOpen with
        | false => cases allowed
        | true =>
            cases allowed
            exact .inr (.inr ⟨rfl, rfl⟩)
  -- writing
  case h_8 f text _ => exact absurd rfl (quiet f text)
  case h_21 f text _ => exact absurd rfl (quiet f text)
  case h_24 b f text _ => exact absurd rfl (quiet f text)
  case h_27 => cases allowed
  -- reading and closing
  case h_2 | h_4 | h_14 | h_15 | h_16 | h_17 | h_22 | h_25 | h_26 =>
    obtain ⟨-, same⟩ := Option.ite_none_right_eq_some.mp allowed
    cases same
    exact .inr (.inl rfl)
  case h_9 | h_10 | h_18 | h_19 =>
    obtain ⟨-, same⟩ := Option.ite_none_right_eq_some.mp allowed
    cases same
    exact .inl rfl
  all_goals
    cases allowed
    exact .inl rfl

end Events

/-- Some replies, one after the other. -/
def replies (bs : List Bool) : List Str := bs.map fun b => replyMsg (if b then grantS else denyS)

section Told

variable {p : Platform} {fd : Int} {draws : Nat}

/-- The texts that are written up to a phase. -/
structure Told (p : Platform) (draws : Nat) (h : History) (phase : Phase) : Prop where
  texts : written h = [] ∨
    ∃ bs, written h = challengeMsg (generateChallenge p.prng.rand draws).1 :: replies bs
  silent : phase.part = .silent → written h = []
  challenged : phase.part = .challenged ∨ phase.part = .replying → written h ≠ []

theorem Told.quiet {h : History} {phase phase' : Phase} {e : Event Call Reply}
    (told : Told p draws h phase) (quiet : ∀ f text, e.1 ≠ .write f text)
    (goes : phase'.part = phase.part ∨ phase'.part = .ending ∨
      phase.part = .challenged ∧ phase'.part = .replying) : Told p draws (h ++ [e]) phase' := by
  have same : written (h ++ [e]) = written h := by
    have none : written [e] = [] := written_quiet fun e' member => by
      rw [List.mem_singleton.mp member]
      exact quiet
    rw [written_append, none, List.append_nil]
  refine ⟨by rw [same]; exact told.texts, ?_, ?_⟩
  · intro isSilent
    rw [same]
    rcases goes with part | ended | ⟨-, replies⟩
    · exact told.silent (part ▸ isSilent)
    · rw [ended] at isSilent
      cases isSilent
    · rw [replies] at isSilent
      cases isSilent
  · intro isLater
    rw [same]
    rcases goes with part | ended | ⟨challenged, -⟩
    · exact told.challenged (part ▸ isLater)
    · rw [ended] at isLater
      rcases isLater with isPart | isPart
      · cases isPart
      · cases isPart
    · exact told.challenged (.inl challenged)

theorem Told.challenge {h : History} {phase : Phase} (told : Told p draws h phase)
    (isSilent : phase.part = .silent) (n : Int) : Told p draws
      (h ++ [⟨.write fd (challengeMsg (generateChallenge p.prng.rand draws).1), n⟩]) .challenged := by
  have first : written (h ++ [⟨.write fd (challengeMsg (generateChallenge p.prng.rand draws).1), n⟩]) =
      [challengeMsg (generateChallenge p.prng.rand draws).1] := by
    rw [written_append, told.silent isSilent]
    rfl
  refine ⟨.inr ⟨[], first⟩, nofun, fun _ => ?_⟩
  rw [first]
  exact List.cons_ne_nil _ _

theorem Told.reply {h : History} {phase : Phase} (told : Told p draws h phase)
    (isReplying : phase.part = .replying) (b : Bool) (n : Int) : Told p draws
      (h ++ [⟨.write fd (replyMsg (if b then grantS else denyS)), n⟩]) .serving := by
  obtain ⟨bs, texts⟩ := told.texts.resolve_left (told.challenged (.inr isReplying))
  have last : replies (bs ++ [b]) = replies bs ++ [replyMsg (if b then grantS else denyS)] :=
    List.map_append
  have more : written (h ++ [⟨.write fd (replyMsg (if b then grantS else denyS)), n⟩]) =
      challengeMsg (generateChallenge p.prng.rand draws).1 :: replies (bs ++ [b]) := by
    rw [written_append, texts, last]
    rfl
  refine ⟨.inr ⟨bs ++ [b], more⟩, nofun, fun _ => ?_⟩
  rw [more]
  exact List.cons_ne_nil _ _

theorem told_of_reached {h : History} {phase : Phase}
    (kept : reached (conversation p fd draws) .connected h = some phase) : Told p draws h phase := by
  refine reached_invariant (I := Told p draws) ⟨.inl rfl, fun _ => rfl, ?_⟩ ?_ kept
  · intro isLater
    rcases isLater with isPart | isPart
    · cases isPart
    · cases isPart
  · intro h phase e phase' told allowed
    by_cases quiet : ∀ f text, e.1 ≠ .write f text
    · exact told.quiet quiet (conversation_quiet allowed quiet)
    · push Not at quiet
      obtain ⟨f, text, isWrite⟩ := quiet
      obtain ⟨c, n⟩ := e
      obtain rfl : c = .write f text := isWrite
      obtain ⟨rfl, ⟨rfl, isSilent, rfl⟩ | ⟨b, rfl, isReplying, rfl⟩⟩ := conversation_write allowed
      · exact told.challenge isSilent n
      · exact told.reply isReplying b n

theorem conversation_close {phase phase' : Phase} {f : Int}
    (allowed : conversation p fd draws phase ⟨.close f, ()⟩ = some phase') :
    f = fd ∧ phase' = .closed := by
  cases phase with
  | parsed | refused | leaving | requested | closed =>
      obtain ⟨rfl, same⟩ := Option.ite_none_right_eq_some.mp allowed
      cases same
      exact ⟨rfl, rfl⟩
  | _ => cases allowed

theorem closed_stays {h : History} {phase : Phase}
    (kept : reached (conversation p fd draws) .closed h = some phase) :
    phase = .closed ∧ ∀ e ∈ h, (∃ len r, e = ⟨.read fd len, r⟩) ∨ e = ⟨.close fd, ()⟩ := by
  have step : ∀ {e : Event Call Reply} {phase' : Phase},
      conversation p fd draws .closed e = some phase' →
      phase' = .closed ∧ ((∃ len r, e = ⟨.read fd len, r⟩) ∨ e = ⟨.close fd, ()⟩) := by
    rintro ⟨c, r⟩ phase' allowed
    cases c with
    | read f len =>
        obtain ⟨rfl, same⟩ := Option.ite_none_right_eq_some.mp allowed
        cases same
        exact ⟨rfl, .inl ⟨len, r, rfl⟩⟩
    | close f =>
        obtain ⟨rfl, same⟩ := Option.ite_none_right_eq_some.mp allowed
        cases same
        exact ⟨rfl, .inr rfl⟩
    | _ => cases allowed
  refine reached_invariant (I := fun h phase => phase = .closed ∧
    ∀ e ∈ h, (∃ len r, e = ⟨.read fd len, r⟩) ∨ e = ⟨.close fd, ()⟩) ⟨rfl, by simp⟩ ?_ kept
  rintro h _ e phase' ⟨rfl, before⟩ allowed
  obtain ⟨isClosed, isEvent⟩ := step allowed
  refine ⟨isClosed, fun e' member => ?_⟩
  rcases List.mem_append.mp member with old | new
  · exact before e' old
  · rw [List.mem_singleton.mp new]
    exact isEvent

end Told

theorem Listens.quiet {e : Event Call Reply} (listens : Listens e) : ∀ f text, e.1 ≠ .write f text := by
  obtain ⟨c, r⟩ := e
  rintro f text rfl
  exact listens

theorem Converses.written_told {p : Platform} {policy : Str} {h : History} {ended : Prop}
    (converses : Converses p policy h ended) : written h = [] ∨ ∃ bs, written h =
      challengeMsg (generateChallenge p.prng.rand 0).1 :: replies bs := by
  rcases converses with only | ⟨o, talk, phase, rfl, kept, -⟩
  · refine .inl (written_quiet fun e inside => ?_)
    rcases only e inside with listens | rfl
    · exact listens.quiet
    · exact nofun
  · have quiet : written o.history = [] := written_quiet fun e inside => by
      rcases o.history_events e inside with listens | rfl
      · exact listens.quiet
      · exact nofun
    rw [written_append, quiet, List.nil_append]
    exact (told_of_reached kept).texts

/-- In every run, what a process writes is nothing, or one challenge and then replies; and
    once it has closed its connection, it writes nothing more and asks no query. -/
theorem client_is_told {p : Platform} {xsb : Str → Option Str → QueryEnd → Prop} {policy : Str}
    {socketInit : Bool} {file : World} {s : Pool Call Reply Mode World}
    (reach : (server p xsb).Reachable (startListening policy socketInit) file s)
    {proc : Process Call Reply Mode} (member : proc ∈ s.procs) :
    (written proc.history = [] ∨ ∃ bs, written proc.history =
      challengeMsg (generateChallenge p.prng.rand 0).1 :: replies bs) ∧
    ∀ before fd after, proc.history = before ++ ⟨.close fd, ()⟩ :: after →
      ∀ e ∈ after, (∃ len r, e = ⟨.read fd len, r⟩) ∨ e = ⟨.close fd, ()⟩ := by
  obtain ⟨past, now, m, cut, talks, run⟩ := talks_reached reach member
  have converses := (talks.steps run).1
  rw [← cut] at converses
  refine ⟨converses.written_told, fun before fd after cut => ?_⟩
  rcases converses with only | ⟨o, talk, phase, same, kept, -⟩
  · rcases only ⟨.close fd, ()⟩ (by simp [cut]) with listens | removal
    · exact listens.elim
    · cases removal
  · have outside : (⟨.close fd, ()⟩ : Event Call Reply) ∉ o.history := by
      intro inside
      rcases o.history_events _ inside with listens | forked
      · exact listens
      · cases forked
    obtain ⟨talked, -, rfl⟩ := cut_second outside (same.symm.trans cut)
    obtain ⟨middle, -, rest⟩ := reached_split kept
    obtain ⟨phase', allowed, later⟩ := Option.bind_eq_some_iff.mp rest
    obtain ⟨rfl, rfl⟩ := conversation_close allowed
    exact (closed_stays later).2

theorem client_is_told_alice : ∃ (s : Pool Call Reply Mode World) (proc : Process Call Reply Mode),
    proc ∈ s.procs ∧ ∃ bs, written proc.history =
      challengeMsg (generateChallenge villagePlatform.prng.rand 0).1 :: replies bs := by
  obtain ⟨s, proc, reach, member, own⟩ := alice_admitted
  refine ⟨s, proc, member, (client_is_told reach member).1.resolve_left ?_⟩
  have challenged : written proc.own ≠ [] := by
    rw [own]
    exact List.cons_ne_nil _ _
  rw [Process.history, written_append]
  exact List.append_ne_nil_of_right_ne_nil _ challenged

end RepositoryManager
