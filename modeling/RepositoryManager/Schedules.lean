import RepositoryManager.Server

/-! # Runs that happen

The other direction of the session lemmas: every admission can take place, every
query of an open session can be asked, and one after the other they make runs of the
server, in any number and order.
-/

namespace RepositoryManager

open ByteString Interaction Interaction.Prog ProcessPool

/-! ## Methods -/

theorem receive_once (fd : Int) (mark bytes : Str) (complete : (find mark (cstr bytes)).isSome) :
    Returns (receive fd mark []) [⟨.read fd maxRead, some bytes⟩] (cstr bytes) := by
  rw [receive]
  refine .call ?_
  simp only [List.nil_append, complete, not_true_eq_false, false_and, and_false, if_false]
  exact .refl _

/-- The image an admission leaves. -/
def Admission.image {p : Platform} {im : TransportService} (a : Admission p im) :
    TransportService :=
  { im with
    ss := a.ss, clientAuthenticated := true, processingRequests := true
    draws := im.draws + maxChallengeBuf }

theorem authenticateClient_returns {p : Platform} {im : TransportService} {c : Credential}
    {reads : History} {response : Str} {b : Bool}
    (received : Returns (receive im.clientSocketId endResponseS []) reads response)
    (verdict : verifySig p.openssl c.pubKey response (generateChallenge p.prng.rand im.draws).1 = b)
    (n : Int) :
    Returns (authenticateClient p im c)
      ([⟨.note (.challenged im.draws (generateChallenge p.prng.rand im.draws).1), ()⟩,
        ⟨.write im.clientSocketId (challengeMsg (generateChallenge p.prng.rand im.draws).1), n⟩] ++
        reads ++
        [⟨.note (.authenticated c.pubKey response (generateChallenge p.prng.rand im.draws).1 b), ()⟩])
      (b, { im with draws := im.draws + maxChallengeBuf }) := by
  subst verdict
  rw [authenticateClient_eq]
  exact .call (.call (returns_bind.mpr ⟨_, _, _, rfl, received, .call (.refl _)⟩))

theorem Admission.returns {p : Platform} {im : TransportService} (a : Admission p im)
    (received : Returns (receive im.clientSocketId endResponseS []) a.answers a.response) :
    Returns (processMsg p im) a.history a.image := by
  have authenticates := @authenticateClient_returns p { im with ss := a.ss } a.credential a.answers
    a.response true received a.signed a.sent
  have writes : Returns (writeBinderFile a.ss) [⟨.saveBinder (binderText a.policy a.checked), true⟩]
      true := returns_writeBinderFile.mpr ⟨_, _, a.hasPolicy, a.hasCredential, rfl⟩
  have admits : Returns (admitClient p { im with ss := a.ss } a.credential)
      (([⟨.note (.challenged im.draws a.challenge), ()⟩,
        ⟨.write im.clientSocketId (challengeMsg a.challenge), a.sent⟩] ++ a.answers ++
        [⟨.note (.authenticated a.credential.pubKey a.response a.challenge true), ()⟩]) ++
        ([⟨.saveBinder (binderText a.policy a.checked), true⟩] ++
          [⟨.note (.binderWritten true), ()⟩])) a.image :=
    returns_bind.mpr ⟨_, _, _, rfl, authenticates,
      returns_bind.mpr ⟨true, _, _, rfl, writes, .call (.refl _)⟩⟩
  have verdict : (im.ss.setPolicy im.policy).bind (fun ss =>
      verifyCredential p.openssl p.clib p.validateCertTime a.curTimes ss (some a.credential)) =
        some (true, a.ss) := by
    rw [a.trusts, Option.bind_some, a.verified]
  have checks : ∀ {h}, Returns (admitClient p { im with ss := a.ss } a.credential) h a.image →
      Returns (checkClient p im a.credential)
        (⟨.time, a.curTimes⟩ :: ⟨.note (.verified a.credential a.checked true), ()⟩ :: h) a.image := by
    intro h admitted
    refine .call ?_
    have decided : Returns (decideClient p im a.credential (some (true, a.ss)))
        (⟨.note (.verified a.credential a.checked true), ()⟩ :: h) a.image := by
      rw [decideClient, a.hasCredential]
      exact .call admitted
    rw [← verdict] at decided
    exact decided
  have builds : ∀ {h}, Returns (checkClient p im a.credential) h a.image →
      Returns (processMsg p im)
        (⟨.time, a.clock⟩ :: ⟨.note (.built im.socketMsg a.credential), ()⟩ :: h) a.image := by
    intro h checked
    simp only [processMsg, a.nonempty, if_false, a.parsed]
    refine .call ?_
    change Returns (buildClient p im _) _ _
    rw [a.built]
    exact .call checked
  simpa [history] using builds (checks admits)

/-- A query that XSB answers with the output `out`, and the reply. -/
def answerHistory (fd : Int) (query : Str) (loaded out : Option Str) (b : Bool) : History :=
  [⟨.popen (cstr (queryCommand query)), (loaded, .finished out)⟩, ⟨.note (.executed query b), ()⟩,
    ⟨.write fd (replyMsg (if b then grantS else denyS)), (1 : Int)⟩]

theorem processRequest_returns {im : TransportService} {cred : Credential}
    (hasCred : im.ss.credPtr = some cred) {reads : History} {request query : Str}
    (received : Returns (receive im.clientSocketId endClientRequestS []) reads request)
    (isOpen : Open im request) (generated : generateQuery (some cred) request = some query)
    (nonempty : query ≠ []) {loaded : Option Str} {out : Option Str} {b : Bool}
    (decision : executeQueryProc out = some b) :
    Returns (processRequest im) (reads ++ answerHistory im.clientSocketId query loaded out b)
      (true, im) := by
  refine returns_bind.mpr ⟨request, reads, _, rfl, received, ?_⟩
  rw [handleRequest_open isOpen, answerRequest, hasCred, generated]
  refine returns_bind.mpr ⟨(), _, [], (List.append_nil _).symm, ?_, .refl _⟩
  dsimp only
  rw [answerQuery_eq im nonempty]
  exact returns_bind.mpr ⟨b, [_], _, rfl,
    (returns_executeQuery nonempty).mpr ⟨loaded, _, rfl, .inr ⟨out, rfl, decision⟩⟩,
    .call (.call (.refl _))⟩

/-! ## Runs -/

section Runs

variable {p : Platform} {xsb : Str → Option Str → QueryEnd → Prop} {policy : Str}

/-- The image of the process that listens, after it accepted `fd`. -/
def parentImage (policy : Str) (fd : Int) : TransportService :=
  { TransportService.start policy true with clientSocketId := fd, socketListening := true }

/-- The image of the child that is forked for `fd`. -/
def childImage (policy : Str) (fd : Int) (first : Str) : TransportService :=
  { parentImage policy fd with
    socketMsg := cstr first, children := (parentImage policy fd).children + 1 }

/-- The first process is about to accept a connection. -/
def AtHome (p : Platform) (policy : Str) (s : Pool Call Reply Mode World) : Prop :=
  ∃ q fd, s.procs[0]? = some q ∧ q.rest = serve p (.listening (parentImage policy fd))

/-- The calls of a connection that is admitted, with the process that makes each. -/
def openingTrace {fd : Int} {first : Str} (child : Nat)
    (a : Admission p (childImage policy fd first)) : List (Nat × Event Call Reply) :=
  [(0, ⟨.accept, fd⟩), (0, ⟨.read fd maxBuff, some first⟩), (0, ⟨.fork, .parent⟩),
    (child, ⟨.fork, .child⟩), (0, ⟨.elapsed, (0 : Nat)⟩)] ++ a.history.map fun e => (child, e)

theorem reads_answered {fd : Int} {bytes : Str} (short : bytes.length ≤ maxRead) (file : World) :
    (server p xsb).Answers file [⟨.read fd maxRead, some bytes⟩] file :=
  .cons ⟨short, rfl⟩ rfl .nil

theorem Admission.answers_history {im : TransportService} (a : Admission p im)
    (reads : ∀ file, (server p xsb).Answers file a.answers file) (file : World) :
    (server p xsb).Answers file a.history (some (binderText a.policy a.checked)) := by
  have quiet : ∀ {c : Call} {r : Reply c} {h : History} {w : World},
      answered xsb file c r file → (server p xsb).twin c r = none →
        (server p xsb).Answers file h w → (server p xsb).Answers file (⟨c, r⟩ :: h) w :=
    fun allowed single later => .cons allowed single later
  rw [history, List.append_assoc]
  exact quiet rfl rfl (quiet rfl rfl (quiet rfl rfl (quiet rfl rfl (quiet rfl rfl (quiet rfl rfl
    ((reads file).append (quiet rfl rfl (.cons rfl rfl (.cons rfl rfl .nil)))))))))

variable {start : World} {s : Pool Call Reply Mode World}

/-- A client connects and a child is forked for it. The first process is at its test for
    idle time, and the child at the beginning of `processMsg`. -/
theorem hand_over (reach : (server p xsb).Reachable (startListening policy true) start s)
    (home : AtHome p policy s) {fd : Int} {first : Str} (nonzero : fd ≠ 0)
    (fits : first.length ≤ maxBuff) :
    ∃ t, (server p xsb).Reachable (startListening policy true) start t ∧
      t.procs.length = s.procs.length + 1 ∧
      (∀ i q, 0 < i → s.procs[i]? = some q → t.procs[i]? = some q) ∧
      (∃ q, t.procs[0]? = some q ∧ q.rest = checkIdle (parentImage policy fd)) ∧
      (∃ q, t.procs[s.procs.length]? = some q ∧ q.own = [⟨.fork, .child⟩] ∧
        q.rest = (processMsg p (childImage policy fd first) >>= fun im => .ret (.serving im))) ∧
      t.world = s.world ∧
      t.trace = s.trace ++ [(0, ⟨.accept, fd⟩), (0, ⟨.read fd maxBuff, some first⟩),
        (0, ⟨.fork, .parent⟩), (s.procs.length, ⟨.fork, .child⟩)] := by
  obtain ⟨q, fd₀, at_0, loop⟩ := home
  obtain ⟨inside, -⟩ := List.getElem?_eq_some_iff.mp at_0
  have accepts : Steps q.rest [⟨.accept, fd⟩, ⟨.read fd maxBuff, some first⟩]
      (.call .fork (afterFork p { parentImage policy fd with socketMsg := cstr first })) := by
    have goes : serve p (.listening (parentImage policy fd₀)) =
        acceptClient p (parentImage policy fd₀) := rfl
    rw [loop, goes, acceptClient]
    refine .call ?_
    change Steps (if fd ≠ 0 then _ else _) _ _
    rw [if_pos nonzero]
    exact .call (.refl _)
  obtain ⟨t₁, reach₁, frame₁, length₁, at_1, world₁, trace₁⟩ :=
    reach.advance at_0 accepts (.cons rfl rfl (.cons ⟨fits, rfl⟩ rfl .nil))
  obtain ⟨t₂, reach₂, frame₂, length₂, at_2, child₂, world₂, trace₂⟩ :=
    reach₁.spawn at_1 rfl (r := Fork.parent) ⟨Fork.noConfusion, rfl⟩ rfl
  rw [length₁] at child₂
  refine ⟨t₂, reach₂, by omega, ?_, ⟨_, at_2, rfl⟩, ⟨_, child₂, rfl, rfl⟩,
    world₂.trans world₁, ?_⟩
  · intro i q' positive found
    obtain ⟨bound, -⟩ := List.getElem?_eq_some_iff.mp found
    rw [frame₂.same i (by omega) (by omega), frame₁.same i bound (by omega), found]
  · rw [trace₂, trace₁, length₁]
    simp

theorem listen_again (reach : (server p xsb).Reachable (startListening policy true) start s) {fd : Int}
    (waits : ∃ q, s.procs[0]? = some q ∧ q.rest = checkIdle (parentImage policy fd)) :
    ∃ t, (server p xsb).Reachable (startListening policy true) start t ∧ AtHome p policy t ∧
      t.procs.length = s.procs.length ∧
      (∀ i q, 0 < i → s.procs[i]? = some q → t.procs[i]? = some q) ∧ t.world = s.world ∧
      t.trace = s.trace ++ [(0, ⟨.elapsed, (0 : Nat)⟩)] := by
  obtain ⟨q, at_0, test⟩ := waits
  have idles : Steps q.rest [⟨.elapsed, (0 : Nat)⟩] (.ret (.listening (parentImage policy fd))) := by
    rw [test]
    exact .call (.refl _)
  obtain ⟨t₁, reach₁, frame₁, length₁, at_1, world₁, trace₁⟩ :=
    reach.advance at_0 idles (.cons rfl rfl .nil)
  obtain ⟨t₂, reach₂, frame₂, length₂, at_2, world₂, trace₂⟩ := reach₁.next at_1 rfl
  refine ⟨t₂, reach₂, ⟨_, fd, at_2, rfl⟩, length₂.trans length₁, ?_, world₂.trans world₁, ?_⟩
  · intro i q' positive found
    obtain ⟨bound, -⟩ := List.getElem?_eq_some_iff.mp found
    rw [frame₂.same i (by omega) (by omega), frame₁.same i bound (by omega), found]
  · rw [trace₂, trace₁]
    rfl

theorem open_session (reach : (server p xsb).Reachable (startListening policy true) start s)
    (home : AtHome p policy s) {fd : Int} {first : Str} (nonzero : fd ≠ 0)
    (fits : first.length ≤ maxBuff) (a : Admission p (childImage policy fd first))
    (received : Returns (receive fd endResponseS []) a.answers a.response)
    (reads : ∀ file, (server p xsb).Answers file a.answers file) :
    ∃ t, (server p xsb).Reachable (startListening policy true) start t ∧ AtHome p policy t ∧
      t.procs.length = s.procs.length + 1 ∧
      (∀ i q, 0 < i → s.procs[i]? = some q → t.procs[i]? = some q) ∧
      (∃ q, t.procs[s.procs.length]? = some q ∧ q.own = ⟨.fork, .child⟩ :: a.history ∧
        q.rest = .ret (.serving a.image)) ∧
      t.world = some (binderText a.policy a.checked) ∧
      t.trace = s.trace ++ openingTrace s.procs.length a := by
  have inside : 0 < s.procs.length := by
    obtain ⟨q, -, at_0, -⟩ := home
    exact (List.getElem?_eq_some_iff.mp at_0).1
  obtain ⟨t₂, reach₂, length₂, same₂, waits, ⟨child, child₂, forked, begins⟩, -, trace₂⟩ :=
    hand_over reach home nonzero fits
  have checks : Steps child.rest (a.history ++ []) (.ret (.serving a.image)) := by
    rw [begins]
    exact returns_bind.mpr ⟨_, _, _, rfl, a.returns received, .refl _⟩
  rw [List.append_nil] at checks
  obtain ⟨t₄, reach₄, ⟨_, _, home₄, loop⟩, length₄, same₄, world₄, trace₄⟩ := listen_again reach₂ waits
  obtain ⟨t₅, reach₅, frame₅, length₅, at_5, world₅, trace₅⟩ :=
    reach₄.advance (same₄ _ _ inside child₂) checks (a.answers_history reads t₄.world)
  have home₅ := (frame₅.same 0 (by omega) (by omega)).trans home₄
  refine ⟨t₅, reach₅, ⟨_, _, home₅, loop⟩, by omega, ?_, ⟨_, at_5, by simp [forked], rfl⟩, world₅, ?_⟩
  · intro i q' positive found
    obtain ⟨bound, -⟩ := List.getElem?_eq_some_iff.mp found
    rw [frame₅.same i (by omega) (by omega), same₄ i q' positive (same₂ i q' positive found)]
  · rw [trace₅, trace₄, trace₂]
    simp [openingTrace]

theorem ask_query (reach : (server p xsb).Reachable (startListening policy true) start s)
    {i : Nat} {q : Process Call Reply Mode} (found : s.procs[i]? = some q) {im : TransportService}
    (waits : q.rest = .ret (.serving im)) (cred : Credential) (hasCred : im.ss.credPtr = some cred)
    {reads : History} {request query : Str}
    (received : Returns (receive im.clientSocketId endClientRequestS []) reads request)
    (quiet : ∀ file, (server p xsb).Answers file reads file) (isOpen : Open im request)
    (generated : generateQuery (some cred) request = some query) (nonempty : query ≠ [])
    {out : Option Str} (runs : xsb (cstr (queryCommand query)) s.world (.finished out)) {b : Bool}
    (decision : executeQueryProc out = some b) :
    ∃ t, (server p xsb).Reachable (startListening policy true) start t ∧
      (∃ q', t.procs[i]? = some q' ∧ q'.inherited = q.inherited ∧ q'.own = q.own ++
        (reads ++ answerHistory im.clientSocketId query s.world out b)) ∧
      (∀ j q, j ≠ i → s.procs[j]? = some q → t.procs[j]? = some q) ∧ t.world = s.world ∧
      t.trace = s.trace ++
        (reads ++ answerHistory im.clientSocketId query s.world out b).map fun e => (i, e) := by
  obtain ⟨t₁, reach₁, frame₁, length₁, at_1, world₁, trace₁⟩ := reach.next found waits
  have asks := @processRequest_returns im cred hasCred reads request query received isOpen generated
    nonempty s.world out b decision
  have pass : Returns (serve p (.serving im))
      (reads ++ answerHistory im.clientSocketId query s.world out b) (.serving im) :=
    returns_bind.mpr ⟨_, _, [], (List.append_nil _).symm, asks, .refl _⟩
  obtain ⟨t₂, reach₂, frame₂, -, at_2, world₂, trace₂⟩ := reach₁.advance at_1 pass
    ((quiet t₁.world).append
      (.cons ⟨world₁.symm, world₁ ▸ runs, rfl⟩ rfl (.cons rfl rfl (.cons rfl rfl .nil))))
  refine ⟨t₂, reach₂, ⟨_, at_2, rfl, rfl⟩, fun j q other there => ?_, world₂.trans world₁,
    by rw [trace₂, trace₁]⟩
  obtain ⟨bound, -⟩ := List.getElem?_eq_some_iff.mp there
  rw [frame₂.same j (by omega) other, frame₁.same j bound other, there]

end Runs

/-! ## Clients -/

/-- The text of a credential with one fact about a user. -/
def userMsg (name : Str) : Str :=
  ["-----BEGIN MPKI CREDENTIAL-----".toList, pkHeaderS, name, pkEndS,
    "-----BEGIN MPKI CERTIFICATE-----".toList, "user(".toList ++ name ++ ").".toList,
    "-----BEGIN VALIDITY-----".toList, "Not before:".toList, "datime(2011,1,1,0,0,0).".toList,
    "Not after:".toList, "datime(2012,1,1,0,0,0).".toList, "-----END VALIDITY-----".toList,
    pkHeaderS, name, pkEndS, sigS, name, endSigS, "-----END MPKI CERTIFICATE-----".toList,
    "-----END MPKI CREDENTIAL-----".toList].flatMap fun line => line ++ ['\n']

/-- The tree of this text. -/
def userTree (name : Str) : Tree :=
  let datime (year : String) : List Str :=
    ["datime", "(", year, ",", "1", ",", "1", ",", "0", ",", "0", ",", "0", ")", "."].map
      String.toList
  { text := credentialS
    children := [pkHeaderS, name, pkEndS, certS, clauseS, "user".toList, ['('], name, [')'], ['.'],
      startTimeS] ++ datime "2011" ++ [stopTimeS] ++ datime "2012" ++
      [pkHeaderS, name, pkEndS, sigS, name, endSigS, endCertS, endS] }

/-- OpenSSL for a world in which every text holds a key and every signature is valid. -/
def OpenSSL.trusting : OpenSSL :=
  { Key := Unit
    bioNewMemBuf := fun _ => true
    pemReadBioRsaPubkey := fun _ => some ()
    bioRead := fun text => some text
    md5 := fun text _ _ => UInt8.ofNat (text.foldl (fun n c => n + c.toNat) 0)
    rsaSize := fun _ => 128
    rsaVerify := fun _ _ _ _ => true }

def alice : Str := "alice".toList
def bob : Str := "bob".toList

/-- A server that has alice and bob as clients. -/
def villagePlatform : Platform :=
  { openssl := .trusting
    clib := .epoch
    antlr := fun msg =>
      if msg = userMsg alice then some (userTree alice)
      else if msg = userMsg bob then some (userTree bob)
      else none
    prng := { State := Nat, seed := 1, step := fun s => (s, s + 1) }
    validateCertTime := false
    walkFuel := 100 }

def userKey (name : Str) : Str := pkHeaderS ++ '\n' :: name ++ '\n' :: pkEndS

def userDigest (name : Str) : Str := getKeyDigest .trusting (userKey name)

/-- The fact of a user, as it is imported. -/
def userLine (name : Str) : Str :=
  "says(".toList ++ userDigest name ++ ",user(".toList ++ name ++ ")).".toList

/-- The credential in the text, with digests and transformed clauses still to come, or as
    `verifyCredential` leaves it. -/
def userCredential (name digest : Str) (transformed : List Str) : Credential :=
  let clause := "user(".toList ++ name ++ ").".toList
  let start := "datime(2011,1,1,0,0,0).".toList
  let stop := "datime(2012,1,1,0,0,0).".toList
  { pubKey := userKey name
    keyDigest := digest
    certificates := [{
      clauses := [clause], transformedCls := transformed, startTimeSec := 0, stopTimeSec := 0
      startTime := start, stopTime := stop
      signature := sigS ++ '\n' :: name ++ '\n' :: endSigS
      pubKey := userKey name, keyDigest := digest, certStr := clause ++ start ++ stop }] }

def userChecked (name : Str) : Credential := userCredential name (userDigest name) [userLine name]

def userPolicy (name : Str) : Policy :=
  { policyStr := [], keyDigest := userDigest name, facts := [userLine name], rules := [] }

/-- The server parses, builds and verifies the credential of this user. -/
structure Known (name : Str) : Prop where
  clean : nul ∉ userMsg name
  nonempty : userMsg name ≠ []
  parsed : villagePlatform.antlr (userMsg name) = some (userTree name)
  built : AstWalker.getCredential (userTree name) CLib.epoch.mktime (CLib.epoch.gmtime 0) 100 =
    some (some (userCredential name [] []))
  verified : verifyCredential .trusting .epoch false (fun _ => 0)
    { policyStr := [], policy := some ⟨[], [], [], []⟩, credPtr := none }
    (some (userCredential name [] [])) = some (true,
      { policyStr := [], policy := some (userPolicy name), credPtr := some (userChecked name) })

theorem bob_ne_alice : userMsg bob ≠ userMsg alice := by decide +kernel

theorem alice_known : Known alice where
  clean := by decide +kernel
  nonempty := by decide +kernel
  parsed := by simp only [villagePlatform, if_true]
  built := by decide +kernel
  verified := by decide +kernel

theorem bob_known : Known bob where
  clean := by decide +kernel
  nonempty := by decide +kernel
  parsed := by simp only [villagePlatform, bob_ne_alice, if_false, if_true]
  built := by decide +kernel
  verified := by decide +kernel

theorem verifySig_trusting {key signature msg : Str} (someKey : key ≠ [])
    (someSignature : signature ≠ []) (someMsg : msg ≠ []) :
    verifySig .trusting key signature msg = true := by
  simp [verifySig, OpenSSL.trusting, someKey, someSignature, someMsg]

/-- A message read at once. -/
def oneRead (fd : Int) (text : Str) : History := [⟨.read fd maxRead, some text⟩]

theorem oneRead_text (fd : Int) {text : Str} (clean : nul ∉ text) :
    cstr (bytesOf (oneRead fd text)) = text := by
  simp only [oneRead, bytesOf, List.append_nil]
  exact cstr_of_clean clean

theorem oneRead_reads (fd : Int) (text : Str) : ∀ e ∈ oneRead fd text, Reads fd e := by
  intro e member
  rw [List.mem_singleton.mp member]
  exact ⟨_, rfl⟩

theorem receive_oneRead (fd : Int) {mark text : Str} (clean : nul ∉ text)
    (complete : (find mark text).isSome) :
    Returns (receive fd mark []) (oneRead fd text) text := by
  have once := receive_once fd mark text
  rw [cstr_of_clean clean] at once
  exact once complete

theorem endResponseS_clean : nul ∉ endResponseS := by decide +kernel

theorem response_signed (name : Str) (fd : Int) (rand : Nat → Nat) (draws : Nat) :
    verifySig .trusting (userKey name) (cstr (bytesOf (oneRead fd endResponseS)))
      (generateChallenge rand draws).1 = true := by
  rw [oneRead_text fd endResponseS_clean]
  have header : pkHeaderS ≠ [] := by decide +kernel
  refine verifySig_trusting ?_ (by decide +kernel) ?_
  · simp [userKey, header]
  · simp [generateChallenge, maxChallengeBuf]

/-- The admission of a known user on the connection `fd`. -/
def userAdmission {name : Str} (known : Known name) (fd : Int) :
    Admission villagePlatform (childImage [] fd (userMsg name)) where
  clock := fun _ => 0
  tree := userTree name
  credential := userCredential name [] []
  trusting := { policyStr := [], policy := some ⟨[], [], [], []⟩, credPtr := none }
  curTimes := fun _ => 0
  ss := { policyStr := [], policy := some (userPolicy name), credPtr := some (userChecked name) }
  policy := userPolicy name
  checked := userChecked name
  sent := 1
  answers := oneRead fd endResponseS
  nonempty := by
    rw [childImage, cstr_of_clean known.clean]
    exact known.nonempty
  parsed := by
    rw [childImage, cstr_of_clean known.clean]
    exact known.parsed
  built := known.built
  trusts := rfl
  verified := known.verified
  hasPolicy := rfl
  hasCredential := rfl
  reads := oneRead_reads fd endResponseS
  signed := response_signed name fd _ _

/-- The session of this user, before its first request. -/
def userSession {name : Str} (known : Known name) (fd : Int) : Session villagePlatform [] where
  before := []
  fd := fd
  first := some (userMsg name)
  forked := childImage [] fd (userMsg name)
  listened := by simp
  policyKept := rfl
  message := rfl
  connected := rfl
  notProcessing := rfl
  service := rfl
  draws := rfl
  admission := userAdmission known fd
  im := (userAdmission known fd).image
  served := []
  sameService := rfl
  sameSocket := rfl
  serving := .none

theorem open_user_session {xsb : Str → Option Str → QueryEnd → Prop}
    {s : Pool Call Reply Mode World}
    (reach : (server villagePlatform xsb).Reachable (startListening [] true) none s)
    (home : AtHome villagePlatform [] s) {name : Str} (known : Known name)
    (fits : (userMsg name).length ≤ maxBuff) (fd : Int) (nonzero : fd ≠ 0) :
    ∃ t, (server villagePlatform xsb).Reachable (startListening [] true) none t ∧
      AtHome villagePlatform [] t ∧ t.procs.length = s.procs.length + 1 ∧
      (∀ i q, 0 < i → s.procs[i]? = some q → t.procs[i]? = some q) ∧
      (∃ q, t.procs[s.procs.length]? = some q ∧
        q.own = ⟨.fork, .child⟩ :: (userAdmission known fd).history ∧
        q.rest = .ret (.serving (userAdmission known fd).image)) ∧
      t.world = some (binderText (userPolicy name) (userChecked name)) ∧
      t.trace = s.trace ++ openingTrace s.procs.length (userAdmission known fd) := by
  refine open_session reach home nonzero fits (userAdmission known fd) ?_
    fun file => reads_answered (by decide +kernel) file
  have text : (userAdmission known fd).response = endResponseS := oneRead_text fd endResponseS_clean
  rw [text]
  exact receive_oneRead fd endResponseS_clean (by decide +kernel)

/-- The request for an operation on a file, and the query made of it. -/
def readRequest : Str := "request(read,file)".toList ++ endClientRequestS

def readQuery (name : Str) : Str := "allow(".toList ++ userDigest name ++ ",read,file).".toList

theorem alice_generates :
    generateQuery (some (userChecked alice)) readRequest = some (readQuery alice) := by
  decide +kernel

theorem ask_user_query {xsb : Str → Option Str → QueryEnd → Prop}
    {s : Pool Call Reply Mode World}
    (reach : (server villagePlatform xsb).Reachable (startListening [] true) none s) {i : Nat}
    {q : Process Call Reply Mode} (found : s.procs[i]? = some q) {name : Str} (known : Known name)
    {fd : Int} (waits : q.rest = .ret (.serving (userAdmission known fd).image))
    (generated : generateQuery (some (userChecked name)) readRequest = some (readQuery name))
    {out : Option Str}
    (runs : xsb (cstr (queryCommand (readQuery name))) s.world (.finished out)) {b : Bool}
    (decision : executeQueryProc out = some b) :
    ∃ t, (server villagePlatform xsb).Reachable (startListening [] true) none t ∧
      (∃ q', t.procs[i]? = some q' ∧ q'.inherited = q.inherited ∧ q'.own = q.own ++
        (oneRead fd readRequest ++ answerHistory fd (readQuery name) s.world out b)) ∧
      t.trace = s.trace ++ (oneRead fd readRequest ++
        answerHistory fd (readQuery name) s.world out b).map fun e => (i, e) := by
  have clean : nul ∉ readRequest := by decide +kernel
  obtain ⟨t, reach', asked, -, -, trace⟩ := ask_query reach found waits (userChecked name) rfl
    (receive_oneRead fd clean (by decide +kernel))
    (fun file => reads_answered (by decide +kernel) file)
    ⟨rfl, by decide +kernel, by decide +kernel⟩ generated
    (List.append_ne_nil_of_right_ne_nil _ (by decide +kernel)) runs decision
  exact ⟨t, reach', asked, trace⟩

theorem atHome_init (p : Platform) (xsb : Str → Option Str → QueryEnd → Prop) (policy : Str)
    (file : World) :
    AtHome p policy ((server p xsb).init (startListening policy true) file) :=
  ⟨_, 0, rfl, rfl⟩

theorem alice_then_bob (xsb : Str → Option Str → QueryEnd → Prop) :
    ∃ t, (server villagePlatform xsb).Reachable (startListening [] true) none t ∧
      (∃ q, t.procs[1]? = some q ∧ q.rest = .ret (.serving (userAdmission alice_known 4).image)) ∧
      t.world = some (binderText (userPolicy bob) (userChecked bob)) ∧
      t.trace = openingTrace 1 (userAdmission alice_known 4) ++
        openingTrace 2 (userAdmission bob_known 5) := by
  obtain ⟨s, reach, home, length, -, ⟨q, at_1, -, waits⟩, -, trace⟩ :=
    open_user_session .init (atHome_init villagePlatform xsb [] none) alice_known
      (by decide +kernel) 4 (by decide)
  obtain ⟨t, reach', -, -, same, -, world, trace'⟩ :=
    open_user_session reach home bob_known (by decide +kernel) 5 (by decide)
  refine ⟨t, reach', ⟨q, same 1 q (by decide) at_1, waits⟩, world, ?_⟩
  rw [trace', trace, length]
  rfl

end RepositoryManager
