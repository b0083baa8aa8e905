import RepositoryManager.TransportService
import RepositoryManager.Verification

/-! # Sessions

What the methods of the server do, as shapes of histories. Before its session a
process only listens. A session begins with `accept`, the first read and the fork,
and is open once `processMsg` has gone through every step of an admission. One
lemma for each method leads to the invariant of the two loops.
-/

namespace RepositoryManager

open ByteString Interaction Interaction.Prog

/-! ## What a process does in each part of its life -/

/-- What the listening process does. -/
def Listens : Event Call Reply → Prop
  | ⟨.accept, _⟩ => True
  | ⟨.read _ _, _⟩ => True
  | ⟨.fork, cid⟩ => cid ≠ .child
  | ⟨.elapsed, _⟩ => True
  | _ => False

/-- What `processMsg` does on the connection `fd` after `draws` calls of `rand`. -/
def Checks (p : Platform) (fd : Int) (draws : Nat) : Event Call Reply → Prop
  | ⟨.time, _⟩ => True
  | ⟨.read f _, _⟩ => f = fd
  | ⟨.write f text, _⟩ => f = fd ∧ text = challengeMsg (generateChallenge p.prng.rand draws).1
  | ⟨.close f, _⟩ => f = fd
  | ⟨.saveBinder _, _⟩ => True
  | ⟨.note (.challenged d challenge), _⟩ =>
      d = draws ∧ challenge = (generateChallenge p.prng.rand draws).1
  | ⟨.note (.executed _ _), _⟩ => False
  | ⟨.note _, _⟩ => True
  | ⟨.abort, _⟩ => True
  | _ => False

/-- What the loop over the requests on the connection `fd` does. -/
def Serves (fd : Int) : Event Call Reply → Prop
  | ⟨.read f _, _⟩ => f = fd
  | ⟨.write f text, _⟩ => f = fd ∧ (text = replyMsg grantS ∨ text = replyMsg denyS)
  | ⟨.close f, _⟩ => f = fd
  | ⟨.popen _, _⟩ => True
  | ⟨.note (.executed _ _), _⟩ => True
  | ⟨.abort, _⟩ => True
  | _ => False

/-- A read on a connection, as the reading loop makes it. -/
def Reads (fd : Int) (e : Event Call Reply) : Prop := ∃ r, e = ⟨.read fd maxRead, r⟩

/-- The bytes that the reads of a history gave. -/
def bytesOf : History → Str
  | [] => []
  | ⟨.read _ _, some bytes⟩ :: h => bytes ++ bytesOf h
  | _ :: h => bytesOf h

theorem abort_only {α : Type} {P : Event Call Reply → Prop} : (abort : Server α).Only P :=
  fun r => nomatch r

theorem returns_abort {α : Type} {h : History} {a : α} : ¬ Returns (abort : Server α) h a := by
  intro run
  obtain ⟨r, _⟩ := returns_call.mp run
  cases r

/-! ## Reading -/

theorem receive_only (fd : Int) (mark msgBuff : Str) :
    (receive fd mark msgBuff).Only (Reads fd) := by
  fun_induction receive fd mark msgBuff with
  | case1 msgBuff ih =>
      intro r
      refine ⟨⟨r, rfl⟩, ?_⟩
      cases r with
      | none => trivial
      | some bytes =>
          dsimp only
          split
          · rename_i more
            exact ih bytes more
          · trivial

/-- The text read is a C string: the bytes of all reads up to the first NUL. -/
theorem returns_receive {fd : Int} {mark msgBuff : Str} {h : History} {text : Str}
    (run : Returns (receive fd mark msgBuff) h text) : text = cstr (msgBuff ++ bytesOf h) := by
  fun_induction receive fd mark msgBuff generalizing h with
  | case1 msgBuff ih =>
      obtain ⟨r, h', rfl, rest⟩ := returns_call.mp run
      cases r with
      | none =>
          obtain ⟨rfl, rfl⟩ := returns_ret.mp rest
          simp [bytesOf]
      | some bytes =>
          dsimp only at rest
          split at rest
          · rename_i more
            rw [ih bytes more rest, bytesOf, List.append_assoc]
          · obtain ⟨rfl, rfl⟩ := returns_ret.mp rest
            simp [bytesOf]

/-! ## Requests -/

theorem returns_executeQuery {query : Str} (nonempty : query ≠ []) {h : History} {b : Bool} :
    Returns (executeQuery query) h b ↔
      ∃ loaded ending, h = [⟨.popen (cstr (queryCommand query)), (loaded, ending)⟩] ∧
        ((ending = .noThread ∧ b = false) ∨
          ∃ out, ending = .finished out ∧ executeQueryProc out = some b) := by
  simp only [executeQuery, nonempty, if_false, perform_bind, returns_call]
  constructor
  · rintro ⟨⟨loaded, ending⟩, h', rfl, rest⟩
    cases ending with
    | noThread =>
        obtain ⟨rfl, rfl⟩ := returns_ret.mp rest
        exact ⟨loaded, _, rfl, .inl ⟨rfl, rfl⟩⟩
    | finished out =>
        cases decision : executeQueryProc out with
        | none =>
            simp only [decision] at rest
            exact absurd rest returns_abort
        | some qStats =>
            simp only [decision] at rest
            obtain ⟨rfl, rfl⟩ := returns_ret.mp rest
            exact ⟨loaded, _, rfl, .inr ⟨out, rfl, decision⟩⟩
    | unfinished => exact absurd rest returns_abort
  · rintro ⟨loaded, ending, rfl, ⟨rfl, rfl⟩ | ⟨out, rfl, decision⟩⟩
    · exact ⟨_, [], rfl, .refl _⟩
    · refine ⟨_, [], rfl, ?_⟩
      simp only [decision]
      exact .refl _

theorem answerQuery_eq (im : TransportService) {query : Str} (nonempty : query ≠ []) :
    answerQuery im query = executeQuery query >>= fun retVal =>
      .call (.note (.executed query retVal)) fun _ =>
        .call (.write im.clientSocketId (replyMsg (if retVal then grantS else denyS))) fun _ =>
          .ret () := by
  simp only [answerQuery, nonempty, ne_eq, not_false_eq_true, if_true]
  rfl

/-- What executing a query does. -/
def Executes (query : Str) : Event Call Reply → Prop
  | ⟨.popen cmd, _⟩ => query ≠ [] ∧ cmd = cstr (queryCommand query)
  | ⟨.abort, _⟩ => True
  | _ => False

/-- What answering a query does on the connection `fd`. -/
def Answers (fd : Int) (query : Str) : Event Call Reply → Prop
  | ⟨.write f text, _⟩ => f = fd ∧ (text = replyMsg grantS ∨ text = replyMsg denyS)
  | ⟨.note (.executed q _), _⟩ => q = query
  | e => Executes query e

theorem executeQuery_only (query : Str) : (executeQuery query).Only (Executes query) := by
  by_cases nonempty : query = []
  · simp only [executeQuery, nonempty, if_true]
    trivial
  · simp only [executeQuery, nonempty, if_false, perform_bind]
    rintro ⟨loaded, ending⟩
    refine ⟨⟨nonempty, rfl⟩, ?_⟩
    cases ending with
    | noThread => trivial
    | finished out =>
        dsimp only
        cases executeQueryProc out with
        | none => exact abort_only
        | some qStats => trivial
    | unfinished => exact abort_only

theorem answerQuery_only (im : TransportService) (query : Str) :
    (answerQuery im query).Only (Answers im.clientSocketId query) := by
  by_cases nonempty : query = []
  · subst nonempty
    exact fun n => ⟨⟨rfl, .inr rfl⟩, trivial⟩
  · rw [answerQuery_eq im nonempty]
    refine Only.bind (Only.mono ?_ (executeQuery_only query)) ?_
    · rintro ⟨c, r⟩ executes
      cases c <;> first | exact executes | exact executes.elim
    · refine fun retVal _ => ⟨rfl, fun _ => ⟨⟨rfl, ?_⟩, trivial⟩⟩
      cases retVal with
      | false => exact .inr rfl
      | true => exact .inl rfl

theorem denied_not_granted : ¬ grantS <:+: replyMsg denyS :=
  (find_eq_none_iff _ _).mp (by decide)

/-- A text that is written for a query comes right after it, and is the reply it decides. -/
theorem write_of_answerQuery {im : TransportService} {query : Str} (nonempty : query ≠ [])
    {begun later : History} {rest : Server Unit} {fd n : Int} {text : Str}
    (run : Steps (answerQuery im query) (begun ++ ⟨.write fd text, n⟩ :: later) rest) :
    ∃ b loaded ending, text = replyMsg (if b then grantS else denyS) ∧
      begun = [⟨.popen (cstr (queryCommand query)), (loaded, ending)⟩,
        ⟨.note (.executed query b), ()⟩] ∧
      ((ending = .noThread ∧ b = false) ∨
        ∃ out, ending = .finished out ∧ executeQueryProc out = some b) := by
  rw [answerQuery_eq im nonempty] at run
  rcases steps_bind run with ⟨p', inside, -⟩ | ⟨b, h₁, h₂, cut, executed, after⟩
  · exact (inside.only (executeQuery_only query) ⟨.write fd text, n⟩ (by simp)).elim
  · obtain ⟨loaded, ending, rfl, decided⟩ := (returns_executeQuery nonempty).mp executed
    rw [List.singleton_append, eq_comm] at cut
    rcases steps_call.mp after with ⟨rfl, -⟩ | ⟨_, h₃, rfl, last⟩
    · simp [List.cons_eq_append_iff] at cut
    rcases steps_call.mp last with ⟨rfl, -⟩ | ⟨_, h₄, rfl, done⟩
    · simp [List.cons_eq_append_iff] at cut
    obtain ⟨rfl, -⟩ := steps_ret.mp done
    simp [List.cons_eq_append_iff] at cut
    obtain ⟨rfl, ⟨⟨-, rfl⟩, -⟩, -⟩ := cut
    exact ⟨b, loaded, ending, rfl, rfl, decided⟩

/-- A reply with `granted` in it comes right after a query that was executed and
    returned true. -/
theorem grant_of_answerQuery {im : TransportService} {query : Str} {past later : History}
    {rest : Server Unit} {fd n : Int} {text : Str}
    (run : Steps (answerQuery im query) (past ++ ⟨.write fd text, n⟩ :: later) rest)
    (granted : grantS <:+: text) :
    query ≠ [] ∧ ∃ reply, past = [⟨.popen (cstr (queryCommand query)), reply⟩,
      ⟨.note (.executed query true), ()⟩] := by
  by_cases nonempty : query = []
  · subst nonempty
    rcases steps_call.mp run with ⟨cut, -⟩ | ⟨_, _, cut, done⟩
    · simp at cut
    · obtain ⟨rfl, -⟩ := steps_ret.mp done
      obtain ⟨rfl, same⟩ := List.append_eq_singleton_iff.mp cut |>.resolve_right (by simp)
      cases same
      exact absurd granted denied_not_granted
  · obtain ⟨b, loaded, ending, rfl, rfl, -⟩ := write_of_answerQuery nonempty run
    cases b with
    | true => exact ⟨nonempty, _, rfl⟩
    | false => exact absurd granted denied_not_granted

/-- A request that is answered, rather than closing the connection. -/
structure Open (im : TransportService) (request : Str) : Prop where
  processing : im.processingRequests = true
  goesOn : find finS request = none
  nonempty : request ≠ []

theorem handleRequest_open {im : TransportService} {request : Str} (isOpen : Open im request) :
    handleRequest im request = answerRequest im request >>= fun _ => .ret (true, im) := by
  have next : checkRequest im request = im := by
    simp [checkRequest, isOpen.goesOn, isOpen.nonempty]
  simp only [handleRequest, next, isOpen.processing, if_true]
  rfl

theorem handleRequest_closed {im : TransportService} {request : Str} (closed : ¬ Open im request) :
    ∃ im', im'.processingRequests = false ∧ handleRequest im request =
      .call (.close im.clientSocketId) fun _ => .ret (false, im') := by
  have next : (checkRequest im request).processingRequests = false := by
    unfold checkRequest
    split
    · rfl
    · rename_i goesOn
      split
      · rfl
      · rename_i nonempty
        by_contra processing
        exact closed ⟨by simpa using processing, by simpa using goesOn, nonempty⟩
  refine ⟨{ checkRequest im request with socketListening := false }, next, ?_⟩
  simp only [handleRequest, next, Bool.false_eq_true, if_false]
  rfl

theorem steps_processRequest {im : TransportService} {h : History}
    {rest : Server (Bool × TransportService)} (run : Steps (processRequest im) h rest) :
    ∃ reads now, h = reads ++ now ∧ (∀ e ∈ reads, Reads im.clientSocketId e) ∧
      (now = [] ∨ now = [⟨.close im.clientSocketId, ()⟩] ∨
        ∃ query rest', Open im (cstr (bytesOf reads)) ∧
          generateQuery im.ss.credPtr (cstr (bytesOf reads)) = some query ∧
          Steps (answerQuery im query) now rest') := by
  rcases steps_bind run with ⟨p', inside, -⟩ | ⟨request, reads, now, rfl, received, run⟩
  · exact ⟨h, [], by simp, inside.only (receive_only _ _ _), .inl rfl⟩
  · refine ⟨reads, now, rfl, received.only (receive_only _ _ _), ?_⟩
    have text := returns_receive received
    rw [List.nil_append] at text
    subst text
    by_cases isOpen : Open im (cstr (bytesOf reads))
    · rw [handleRequest_open isOpen, answerRequest] at run
      cases made : generateQuery im.ss.credPtr (cstr (bytesOf reads)) with
      | none =>
          rw [made] at run
          rcases steps_call.mp run with ⟨rfl, -⟩ | ⟨r, _⟩
          · exact .inl rfl
          · cases r
      | some query =>
          rw [made] at run
          refine .inr (.inr ⟨query, ?_⟩)
          rcases steps_bind run with ⟨p', inside, -⟩ | ⟨_, h₁, h₂, rfl, done, last⟩
          · exact ⟨p', isOpen, rfl, inside⟩
          · obtain ⟨rfl, -⟩ := steps_ret.mp last
            exact ⟨_, isOpen, rfl, by simpa using done⟩
    · obtain ⟨im', -, closes⟩ := handleRequest_closed isOpen
      rw [closes] at run
      rcases steps_call.mp run with ⟨rfl, -⟩ | ⟨_, _, rfl, done⟩
      · exact .inl rfl
      · obtain ⟨rfl, -⟩ := steps_ret.mp done
        exact .inr (.inl rfl)

theorem processRequest_only (im : TransportService) :
    (processRequest im).Only (Serves im.clientSocketId) := by
  refine Only.bind (Only.mono ?_ (receive_only _ _ _)) fun request => ?_
  · rintro _ ⟨r, rfl⟩
    exact rfl
  · by_cases isOpen : Open im request
    · rw [handleRequest_open isOpen, answerRequest]
      refine Only.bind ?_ fun _ => trivial
      cases generateQuery im.ss.credPtr request with
      | none => exact abort_only
      | some query =>
          refine Only.mono ?_ (answerQuery_only im query)
          rintro ⟨c, r⟩ answers
          cases c with
          | write f text => exact answers
          | popen cmd => trivial
          | note n => cases n <;> trivial
          | abort => trivial
          | _ => exact answers.elim
    · obtain ⟨im', -, closes⟩ := handleRequest_closed isOpen
      rw [closes]
      exact fun _ => ⟨rfl, trivial⟩

theorem processRequest_again {im im' : TransportService} {h : History}
    (run : Returns (processRequest im) h (true, im')) : im' = im := by
  obtain ⟨request, h₁, h₂, rfl, -, run⟩ := returns_bind.mp run
  by_cases isOpen : Open im request
  · rw [handleRequest_open isOpen] at run
    obtain ⟨_, _, _, -, -, last⟩ := returns_bind.mp run
    cases (returns_ret.mp last).2
    rfl
  · obtain ⟨im'', -, closes⟩ := handleRequest_closed isOpen
    rw [closes] at run
    obtain ⟨_, _, -, last⟩ := returns_call.mp run
    cases (returns_ret.mp last).2

/-- Whole passes of the loop over the requests, all in the same image. -/
inductive Served (im : TransportService) : History → Prop where
  | none : Served im []
  | pass {done h} : Served im done → Returns (processRequest im) h (true, im) → Served im (done ++ h)

theorem Served.only {im : TransportService} {h : History} (served : Served im h) :
    ∀ e ∈ h, Serves im.clientSocketId e := by
  induction served with
  | none => simp
  | pass _ answered ih =>
      intro e member
      exact (List.mem_append.mp member).elim (ih e) (answered.only (processRequest_only im) e)

theorem Served.cut {im : TransportService} {h now : History} {rest}
    (served : Served im h) (run : Steps (processRequest im) now rest) {past later : History}
    {e : Event Call Reply} (at_e : h ++ now = past ++ e :: later) :
    ∃ done begun later' rest', Served im done ∧ past = done ++ begun ∧
      Steps (processRequest im) (begun ++ e :: later') rest' := by
  induction served generalizing now rest later with
  | none =>
      rw [List.nil_append] at at_e
      exact ⟨[], past, later, rest, .none, rfl, at_e ▸ run⟩
  | @pass done h before answered ih =>
      rcases List.append_eq_append_iff.mp at_e with ⟨begun, rfl, same⟩ | ⟨tail, same, rest_eq⟩
      · exact ⟨_, begun, later, rest, before.pass answered, rfl, same ▸ run⟩
      · cases tail with
        | nil =>
            rw [List.append_nil] at same
            rw [List.nil_append] at rest_eq
            exact ⟨_, [], later, rest, before.pass answered, by simp [same], rest_eq ▸ run⟩
        | cons e' tail =>
            cases rest_eq
            exact ih answered same

/-! ## Admission -/

/-- Everything that has to happen for `processMsg` to set `processingRequests`. -/
structure Admission (p : Platform) (im : TransportService) where
  clock : Nat → Int
  tree : Tree
  credential : Credential
  /-- The service after `setPolicy`. -/
  trusting : SecurityService
  curTimes : Nat → Int
  /-- The service after `verifyCredential`, its policy and its credential. -/
  ss : SecurityService
  policy : Policy
  checked : Credential
  sent : Int
  answers : History
  nonempty : im.socketMsg ≠ []
  parsed : p.antlr im.socketMsg = some tree
  built : AstWalker.getCredential tree p.clib.mktime (p.clib.gmtime (clock 0)) p.walkFuel =
    some (some credential)
  trusts : im.ss.setPolicy im.policy = some trusting
  verified : verifyCredential p.openssl p.clib p.validateCertTime curTimes trusting
    (some credential) = some (true, ss)
  hasPolicy : ss.policy = some policy
  hasCredential : ss.credPtr = some checked
  reads : ∀ e ∈ answers, Reads im.clientSocketId e
  signed : verifySig p.openssl credential.pubKey (cstr (bytesOf answers))
    (generateChallenge p.prng.rand im.draws).1 = true

namespace Admission

variable {p : Platform} {im : TransportService}

def challenge (_ : Admission p im) : Str := (generateChallenge p.prng.rand im.draws).1

/-- The text read back on the connection. -/
def response (a : Admission p im) : Str := cstr (bytesOf a.answers)

/-- The calls of an admission. -/
def history (a : Admission p im) : History :=
  [⟨.time, a.clock⟩, ⟨.note (.built im.socketMsg a.credential), ()⟩, ⟨.time, a.curTimes⟩,
    ⟨.note (.verified a.credential a.checked true), ()⟩,
    ⟨.note (.challenged im.draws a.challenge), ()⟩,
    ⟨.write im.clientSocketId (challengeMsg a.challenge), a.sent⟩] ++ a.answers ++
  [⟨.note (.authenticated a.credential.pubKey a.response a.challenge true), ()⟩,
    ⟨.saveBinder (binderText a.policy a.checked), true⟩, ⟨.note (.binderWritten true), ()⟩]

end Admission

section ProcessMsg

variable {p : Platform} {im im' : TransportService} {h : History}

theorem authenticateClient_eq (c : Credential) : authenticateClient p im c =
    let challenge := (generateChallenge p.prng.rand im.draws).1
    .call (.note (.challenged im.draws challenge)) fun _ =>
      .call (.write im.clientSocketId (challengeMsg challenge)) fun _ =>
        receive im.clientSocketId endResponseS [] >>= fun response =>
          let b := verifySig p.openssl c.pubKey response challenge
          .call (.note (.authenticated c.pubKey response challenge b)) fun _ =>
            .ret (b, { im with draws := im.draws + maxChallengeBuf }) := rfl

theorem authenticateClient_only (c : Credential) :
    (authenticateClient p im c).Only (Checks p im.clientSocketId im.draws) := by
  rw [authenticateClient_eq]
  refine fun _ => ⟨⟨rfl, rfl⟩, fun _ => ⟨⟨rfl, rfl⟩, ?_⟩⟩
  refine Only.bind (Only.mono ?_ (receive_only _ _ _)) fun _ _ => ⟨trivial, trivial⟩
  rintro _ ⟨r, rfl⟩
  exact rfl

theorem returns_authenticateClient {c : Credential} {b : Bool}
    (run : Returns (authenticateClient p im c) h (b, im')) :
    ∃ n reads, (∀ e ∈ reads, Reads im.clientSocketId e) ∧
      b = verifySig p.openssl c.pubKey (cstr (bytesOf reads))
        (generateChallenge p.prng.rand im.draws).1 ∧
      im' = { im with draws := im.draws + maxChallengeBuf } ∧
      h = [⟨.note (.challenged im.draws (generateChallenge p.prng.rand im.draws).1), ()⟩,
        ⟨.write im.clientSocketId (challengeMsg (generateChallenge p.prng.rand im.draws).1), n⟩] ++
        reads ++
        [⟨.note (.authenticated c.pubKey (cstr (bytesOf reads))
          (generateChallenge p.prng.rand im.draws).1 b), ()⟩] := by
  rw [authenticateClient_eq] at run
  obtain ⟨_, _, rfl, sends⟩ := returns_call.mp run
  obtain ⟨n, _, rfl, waits⟩ := returns_call.mp sends
  obtain ⟨response, reads, last, rfl, received, checks⟩ := returns_bind.mp waits
  have text := returns_receive received
  rw [List.nil_append] at text
  subst text
  obtain ⟨_, _, rfl, done⟩ := returns_call.mp checks
  obtain ⟨rfl, same⟩ := returns_ret.mp done
  cases same
  exact ⟨n, reads, received.only (receive_only _ _ _), rfl, rfl, by simp⟩

theorem writeBinderFile_only (fd : Int) (draws : Nat) (ss : SecurityService) :
    (writeBinderFile ss).Only (Checks p fd draws) := by
  unfold writeBinderFile
  split
  · exact fun _ => ⟨trivial, trivial⟩
  · refine fun isOpen => ⟨trivial, ?_⟩
    cases isOpen with
    | false => trivial
    | true => exact abort_only
  · exact fun _ => ⟨trivial, trivial⟩

theorem admitClient_only (c : Credential) :
    (admitClient p im c).Only (Checks p im.clientSocketId im.draws) := by
  refine Only.bind_returns (authenticateClient_only c) ?_
  rintro ⟨b, im'⟩ h run
  obtain ⟨n, reads, -, -, rfl, -⟩ := returns_authenticateClient run
  cases b with
  | false => exact fun _ => ⟨rfl, trivial⟩
  | true => exact Only.bind (writeBinderFile_only _ _ _) fun _ _ => ⟨trivial, trivial⟩

theorem decideClient_only (c : Credential) (verdict : Option (Bool × SecurityService)) :
    (decideClient p im c verdict).Only (Checks p im.clientSocketId im.draws) := by
  cases verdict with
  | none => exact abort_only
  | some result =>
      obtain ⟨verified, ss⟩ := result
      refine fun _ => ⟨trivial, ?_⟩
      cases verified with
      | false => exact fun _ => ⟨rfl, trivial⟩
      | true => exact @admitClient_only p { im with ss } c

theorem processMsg_only : (processMsg p im).Only (Checks p im.clientSocketId im.draws) := by
  unfold processMsg
  split
  · trivial
  split
  · exact abort_only
  refine fun clock => ⟨trivial, ?_⟩
  change (buildClient p im _).Only _
  generalize AstWalker.getCredential _ _ _ _ = result
  match result with
  | none => exact abort_only
  | some none => exact fun _ => ⟨rfl, trivial⟩
  | some (some c) => exact fun _ => ⟨trivial, fun _ => ⟨trivial, decideClient_only c _⟩⟩

theorem admitClient_admits {c : Credential} (run : Returns (admitClient p im c) h im')
    (off : im.processingRequests = false) (on : im'.processingRequests = true) :
    ∃ n reads policy checked, (∀ e ∈ reads, Reads im.clientSocketId e) ∧
      verifySig p.openssl c.pubKey (cstr (bytesOf reads))
        (generateChallenge p.prng.rand im.draws).1 = true ∧
      im.ss.policy = some policy ∧ im.ss.credPtr = some checked ∧
      im'.ss = im.ss ∧ im'.clientSocketId = im.clientSocketId ∧
      h = [⟨.note (.challenged im.draws (generateChallenge p.prng.rand im.draws).1), ()⟩,
        ⟨.write im.clientSocketId (challengeMsg (generateChallenge p.prng.rand im.draws).1), n⟩] ++
        reads ++
        [⟨.note (.authenticated c.pubKey (cstr (bytesOf reads))
          (generateChallenge p.prng.rand im.draws).1 true), ()⟩,
        ⟨.saveBinder (binderText policy checked), true⟩, ⟨.note (.binderWritten true), ()⟩] := by
  obtain ⟨⟨b, im₁⟩, h₁, h₂, rfl, authenticates, rest⟩ := returns_bind.mp run
  obtain ⟨n, reads, isRead, signed, rfl, rfl⟩ := returns_authenticateClient authenticates
  cases b with
  | false =>
      obtain ⟨_, _, -, done⟩ := returns_call.mp rest
      obtain ⟨-, rfl⟩ := returns_ret.mp done
      rw [off] at on
      cases on
  | true =>
      obtain ⟨written, h₃, h₄, rfl, writes, done⟩ := returns_bind.mp rest
      obtain ⟨_, _, rfl, last⟩ := returns_call.mp done
      obtain ⟨rfl, rfl⟩ := returns_ret.mp last
      cases written with
      | false =>
          simp only [Bool.false_eq_true, if_false] at on
          rw [off] at on
          cases on
      | true =>
          obtain ⟨policy, checked, hasPolicy, hasCredential, rfl⟩ := returns_writeBinderFile.mp writes
          exact ⟨n, reads, policy, checked, isRead, signed.symm, hasPolicy, hasCredential, rfl, rfl,
            by simp⟩

theorem checkClient_admits {c : Credential} (run : Returns (checkClient p im c) h im')
    (off : im.processingRequests = false) (on : im'.processingRequests = true)
    {clock : Nat → Int} {tree : Tree} (nonempty : im.socketMsg ≠ [])
    (parsed : p.antlr im.socketMsg = some tree)
    (built : AstWalker.getCredential tree p.clib.mktime (p.clib.gmtime (clock 0)) p.walkFuel =
      some (some c)) :
    ∃ a : Admission p im,
      ⟨.time, clock⟩ :: ⟨.note (.built im.socketMsg c), ()⟩ :: h = a.history ∧ im'.ss = a.ss ∧
        im'.clientSocketId = im.clientSocketId := by
  obtain ⟨curTimes, h₁, rfl, decides⟩ := returns_call.mp run
  have decides : Returns (decideClient p im c ((im.ss.setPolicy im.policy).bind fun ss =>
    verifyCredential p.openssl p.clib p.validateCertTime curTimes ss (some c))) h₁ im' := decides
  cases verdict : (im.ss.setPolicy im.policy).bind fun ss =>
    verifyCredential p.openssl p.clib p.validateCertTime curTimes ss (some c) with
  | none =>
      rw [verdict] at decides
      exact absurd decides returns_abort
  | some result =>
      obtain ⟨b, ss⟩ := result
      obtain ⟨trusting, trusts, verified⟩ := Option.bind_eq_some_iff.mp verdict
      rw [verdict] at decides
      obtain ⟨_, h₂, rfl, follows⟩ := returns_call.mp decides
      cases b with
      | false =>
          obtain ⟨_, _, -, done⟩ := returns_call.mp follows
          obtain ⟨-, rfl⟩ := returns_ret.mp done
          rw [off] at on
          cases on
      | true =>
          obtain ⟨sent, answers, policy, checked, isRead, signed, hasPolicy, hasCredential, sameSs,
            sameFd, rfl⟩ := @admitClient_admits p { im with ss } _ _ _ follows off on
          refine ⟨⟨clock, tree, c, trusting, curTimes, ss, policy, checked, sent, answers, nonempty,
            parsed, built, trusts, verified, hasPolicy, hasCredential, isRead, signed⟩, ?_, sameSs,
            sameFd⟩
          have is_checked : ss.credPtr.getD c = checked := by rw [hasCredential, Option.getD_some]
          simp [Admission.history, Admission.challenge, Admission.response, is_checked]

theorem processMsg_admits (run : Returns (processMsg p im) h im')
    (off : im.processingRequests = false) (on : im'.processingRequests = true) :
    ∃ a : Admission p im, h = a.history ∧ im'.ss = a.ss ∧
      im'.clientSocketId = im.clientSocketId := by
  unfold processMsg at run
  split at run
  · obtain ⟨-, rfl⟩ := returns_ret.mp run
    rw [off] at on
    cases on
  rename_i nonempty
  split at run
  · exact absurd run returns_abort
  rename_i tree parsed
  obtain ⟨clock, h₁, rfl, builds⟩ := returns_call.mp run
  have builds : Returns (buildClient p im _) h₁ im' := builds
  cases built : AstWalker.getCredential tree p.clib.mktime (p.clib.gmtime (clock 0)) p.walkFuel with
  | none =>
      rw [built] at builds
      exact absurd builds returns_abort
  | some result =>
      rw [built] at builds
      cases result with
      | none =>
          obtain ⟨_, _, -, done⟩ := returns_call.mp builds
          obtain ⟨-, rfl⟩ := returns_ret.mp done
          rw [off] at on
          cases on
      | some c =>
          obtain ⟨_, h₂, rfl, checks⟩ := returns_call.mp builds
          exact checkClient_admits checks off on nonempty parsed built

end ProcessMsg

end RepositoryManager
