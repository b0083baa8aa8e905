import RepositoryManager.SecurityService
import RepositoryManager.AstWalker

/-! # The transport service

`TransportService.h`: a connection is accepted by the listening process and served
by a forked child, which reads the credential, authenticates the client and then
answers its requests. The image of a process is passed along as a record. One pass
of the loops in `startListening` is the body that a process runs again and again.
-/

namespace RepositoryManager

open ByteString Interaction

/-- The generator behind `rand`: `srand` sets the state, and each call steps it. -/
structure Prng where
  State : Type
  seed : State
  step : State → Nat × State

def Prng.state (g : Prng) : Nat → g.State
  | 0 => g.seed
  | i + 1 => (g.step (g.state i)).2

/-- The answer to the `i`-th call since the generator was seeded. -/
def Prng.rand (g : Prng) (i : Nat) : Nat := (g.step (g.state i)).1

/-- What the server is linked with and started with. -/
structure Platform where
  openssl : OpenSSL
  clib : CLib
  /-- The tree of the lexer and the parser; `none` is a null pointer. -/
  antlr : Str → Option Tree
  prng : Prng
  validateCertTime : Bool
  /-- A walk that takes more passes than this counts as one without end. -/
  walkFuel : Nat

/-- The data of a server process. -/
structure TransportService where
  policy : Str
  clientSocketId : Int
  socketMsg : Str
  clientAuthenticated : Bool
  processingRequests : Bool
  socketInit : Bool
  socketListening : Bool
  children : Int
  ss : SecurityService
  /-- How often this process and its ancestors have called `rand`. -/
  draws : Nat

/-- The server before `startListening`, for a policy text and the result of `listen`. -/
def TransportService.start (policy : Str) (socketInit : Bool) : TransportService :=
  { policy, clientSocketId := 0, socketMsg := [], clientAuthenticated := false,
    processingRequests := false, socketInit, socketListening := false, children := 0,
    ss := .empty, draws := 0 }

/-- `TIME_OUT`, in nanoseconds. -/
def timeOut : Nat := 10 * 1000000000

/-- The reading loop of `authenticateClient` and `processRequest`: the bytes read so far
    stand in a zeroed buffer, and `numRead` becomes 0 once `strstr` finds the mark. -/
def receive (fd : Int) (mark msgBuff : Str) : Server Str :=
  .call (.read fd maxRead) fun
    | none => .ret (cstr msgBuff)
    | some bytes =>
        if bytes ≠ [] ∧ ¬ (find mark (cstr (msgBuff ++ bytes))).isSome ∧
            msgBuff.length + bytes.length + maxRead < maxBuff then
          receive fd mark (msgBuff ++ bytes)
        else .ret (cstr (msgBuff ++ bytes))
termination_by maxBuff - msgBuff.length
decreasing_by
  rename_i more
  have := List.length_pos_iff.mpr more.1
  simp only [List.length_append]
  omega

/-- The message with the challenge. -/
def challengeMsg (challenge : Str) : Str :=
  beginChallengeS ++ "\n".toList ++ challenge ++ "\n".toList ++ endChallengeS ++ "\n".toList

/-- The reply to a request. -/
def replyMsg (decision : Str) : Str :=
  beginServerResponseS ++ "\n".toList ++ decision ++ "\n".toList ++ endServerResponseS ++
    "\n".toList

section Session

variable (p : Platform)

/-- Authenticates a client by a challenge to be signed with its private key. -/
def authenticateClient (im : TransportService) (pCred : Credential) :
    Server (Bool × TransportService) := do
  let (challenge, draws) := generateChallenge p.prng.rand im.draws
  note (.challenged im.draws challenge)
  let _ ← Prog.perform (C := Call) (.write im.clientSocketId (challengeMsg challenge))
  let response ← receive im.clientSocketId endResponseS []
  let retVal := verifySig p.openssl pCred.pubKey response challenge
  note (.authenticated pCred.pubKey response challenge retVal)
  return (retVal, { im with draws })

/-- `processMsg` from a verified credential on. -/
def admitClient (im : TransportService) (c : Credential) : Server TransportService := do
  let (clientAuthenticated, im) ← authenticateClient p im c
  let im := { im with clientAuthenticated }
  if clientAuthenticated then
    let written ← writeBinderFile im.ss
    note (.binderWritten written)
    return if written then { im with processingRequests := true } else im
  else
    Prog.perform (C := Call) (.close im.clientSocketId)
    return im

/-- `processMsg` by the verdict on the credential; a method that has thrown ends the
    process. -/
def decideClient (im : TransportService) (c : Credential) :
    Option (Bool × SecurityService) → Server TransportService
  | none => abort
  | some (verified, ss) => do
      note (.verified c (ss.credPtr.getD c) verified)
      let im := { im with ss }
      if verified then admitClient p im c
      else
        Prog.perform (C := Call) (.close im.clientSocketId)
        return im

/-- `processMsg` for a credential built from the message. The clock is asked here even
    when certificate times are not validated. -/
def checkClient (im : TransportService) (c : Credential) : Server TransportService := do
  let clock ← Prog.perform (C := Call) .time
  decideClient p im c do
    let ss ← im.ss.setPolicy im.policy
    verifyCredential p.openssl p.clib p.validateCertTime clock ss (some c)

/-- `processMsg` by the result of the walk over the tree. -/
def buildClient (im : TransportService) : Option (Option Credential) → Server TransportService
  | none => abort
  | some none => do
      Prog.perform (C := Call) (.close im.clientSocketId)
      return im
  | some (some c) => do
      note (.built im.socketMsg c)
      checkClient p im c

/-- Processes messages from the client. -/
def processMsg (im : TransportService) : Server TransportService :=
  if im.socketMsg = [] then pure im
  else
    match p.antlr im.socketMsg with
    | none => abort
    | some tt => do
        let clock ← Prog.perform (C := Call) .time
        buildClient p im
          (AstWalker.getCredential tt p.clib.mktime (p.clib.gmtime (clock 0)) p.walkFuel)

/-- The reply of `processRequest` to a query; an empty query is not executed. -/
def answerQuery (im : TransportService) (query : Str) : Server Unit := do
  let granted ←
    if query ≠ [] then do
      let retVal ← executeQuery query
      note (.executed query retVal)
      pure retVal
    else pure false
  let _ ← Prog.perform (C := Call)
    (.write im.clientSocketId (replyMsg (if granted then grantS else denyS)))
  return ()

/-- `processRequest` for a request of a client that is being served. -/
def answerRequest (im : TransportService) (request : Str) : Server Unit :=
  match generateQuery im.ss.credPtr request with
  | none => abort
  | some query => answerQuery im query

/-- The two tests of `processRequest` that end a session. -/
def checkRequest (im : TransportService) (request : Str) : TransportService :=
  if (find finS request).isSome then { im with processingRequests := false }
  else if request = [] then { im with processingRequests := false }
  else im

/-- `processRequest` once the request is read. -/
def handleRequest (im : TransportService) (request : Str) : Server (Bool × TransportService) :=
  let next := checkRequest im request
  if next.processingRequests then do
    answerRequest next request
    return (true, next)
  else do
    Prog.perform (C := Call) (.close im.clientSocketId)
    return (false, { next with socketListening := false })

/-- Process a client request generating a binder statement and executing the query in
    xsb. -/
def processRequest (im : TransportService) : Server (Bool × TransportService) := do
  let request ← receive im.clientSocketId endClientRequestS []
  handleRequest im request

end Session

/-! ## The loops of a process -/

/-- Where a process is: in the loop of `startListening`, in the loop over the requests
    of its client, or ended. -/
inductive Mode where
  | listening (im : TransportService)
  | serving (im : TransportService)
  | exited

/-- The test for idle time at the end of the listening loop. -/
def checkIdle (im : TransportService) : Server Mode :=
  if im.children = 0 then do
    let elapsed ← Prog.perform (C := Call) .elapsed
    return .listening { im with socketListening := im.socketListening && elapsed ≤ timeOut }
  else pure (.listening im)

/-- The child of an accepted connection, and the process that goes on listening. -/
def afterFork (p : Platform) (im : TransportService) : Fork → Server Mode
  | .child => do
      let im ← processMsg p { im with children := im.children + 1 }
      return .serving im
  | _ => checkIdle { im with socketMsg := [] }

/-- Accepts a connection and forks the child that serves it. -/
def acceptClient (p : Platform) (im : TransportService) : Server Mode := do
  let fd ← Prog.perform (C := Call) .accept
  let im := { im with clientSocketId := fd }
  if fd ≠ 0 then
    let msgBuf ← Prog.perform (C := Call) (.read fd maxBuff)
    -- the error test is on `bytesRead`, which is 0 here whatever `read` returned
    let im := { im with socketMsg := im.socketMsg ++ cstr (msgBuf.getD []) }
    let cid ← Prog.perform (C := Call) .fork
    afterFork p im cid
  else checkIdle im

/-- One pass of the loop of `startListening`. -/
def listenOnce (p : Platform) (im : TransportService) : Server Mode :=
  if im.processingRequests then do
    let cid ← Prog.perform (C := Call) .fork
    match cid with
    | .child => do
        let _ ← processRequest { im with children := im.children + 1 }
        return .exited
    | _ => acceptClient p im
  else acceptClient p im

/-- What a process does in each mode. The process that listened removes the program
    file when `main` returns; a child leaves by `exit`. -/
def serve (p : Platform) : Mode → Server Mode
  | .listening im =>
      if im.socketListening then listenOnce p im
      else do
        Prog.perform (C := Call) .removeBinder
        return .exited
  | .serving im => do
      let (again, im) ← processRequest im
      return if again then .serving im else .exited
  | .exited => pure .exited

/-- `startListening` up to its loop. -/
def startListening (policy : Str) (socketInit : Bool) : Mode :=
  let im := TransportService.start policy socketInit
  .listening (if im.socketInit then { im with socketListening := true } else im)

end RepositoryManager
