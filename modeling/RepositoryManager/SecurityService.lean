import RepositoryManager.Calls
import RepositoryManager.Policy

/-! # The security service

`SecurityService.h`: signatures and digests over OpenSSL, the transformation of
clauses, the query that is built from a request, and the decision that is read
off the output of XSB.
-/

namespace RepositoryManager

open ByteString Interaction

/-! ## Signatures and digests -/

section OpenSSL

variable (o : OpenSSL)

/-- Decodes a base 64 string into a zeroed buffer of three times its length, and
    gives the count that `BIO_read` returns. -/
def decodeB64 (input : Str) : Str × Int :=
  match o.bioRead input with
  | some bytes =>
      let bytes := bytes.take input.length
      (bytes ++ List.replicate (3 * input.length - bytes.length) nul, bytes.length)
  | none => (List.replicate (3 * input.length) nul, -1)

/-- Retrieves the MD5 digest for a message, whose length `strlen` takes. -/
def getMsgDigest (pMsg : Str) : Digest := o.md5 pMsg (cstr pMsg).length

/-- `sprintf(tmp, "%02x", b)` -/
def hexByte (b : UInt8) : Str := [Nat.digitChar (b.toNat / 16), Nat.digitChar (b.toNat % 16)]

/-- `(size_t) n` -/
def sizeT (n : Int) : Nat := (n % 18446744073709551616).toNat

/-- Retrieves an MD5 Digest of a string in binder form. -/
def getKeyDigest (pKey : Str) : Str :=
  let (decKey, keyLen) := decodeB64 o pKey
  let md5Digest := o.md5 decKey (sizeT keyLen)
  "rsa_".toList ++ (List.ofFn fun i => hexByte (md5Digest i)).flatten

theorem hexByte_chars (b : UInt8) : ∀ c ∈ hexByte b, c ∈ "0123456789abcdef".toList := by
  have digit : ∀ n < 16, Nat.digitChar n ∈ "0123456789abcdef".toList := by decide +kernel
  have bound := b.toNat_lt
  intro c member
  simp only [hexByte, List.mem_cons, List.not_mem_nil, or_false] at member
  rcases member with rfl | rfl
  · exact digit _ (by omega)
  · exact digit _ (by omega)

theorem getKeyDigest_chars (pKey : Str) :
    ∀ c ∈ getKeyDigest o pKey, c ∈ "rsa_".toList ∨ c ∈ "0123456789abcdef".toList := by
  intro c member
  rcases List.mem_append.mp member with inMark | inHex
  · exact .inl inMark
  · obtain ⟨byte, ofBytes, inByte⟩ := List.mem_flatten.mp inHex
    obtain ⟨i, rfl⟩ := List.mem_ofFn.mp ofBytes
    exact .inr (hexByte_chars _ c inByte)

/-- Verifies the signature of a credential or certificate. -/
def verifySig (pKey pB64DgstSigned pMsg : Str) : Bool :=
  if pKey = [] then false
  else if pB64DgstSigned = [] then false
  else if pMsg = [] then false
  else
    let md5Digest := getMsgDigest o pMsg
    if o.bioNewMemBuf pKey then
      match o.pemReadBioRsaPubkey pKey with
      | some pubKey =>
          -- the number of bytes decoded into `decSig` is not used
          let (decSig, _) := decodeB64 o pB64DgstSigned
          o.rsaVerify md5Digest decSig (o.rsaSize pubKey) pubKey
      -- the two failures are printed, and the result stays what it was set to
      | none => true
    else true

end OpenSSL

/-- OpenSSL on texts that hold no key and no base64 line: nothing is parsed, nothing is
    decoded, and MD5 is that of the empty message. -/
def OpenSSL.plainText : OpenSSL :=
  { Key := Unit
    bioNewMemBuf := fun _ => true
    pemReadBioRsaPubkey := fun _ => none
    bioRead := fun _ => some []
    md5 := fun _ _ => List.get [0xd4, 0x1d, 0x8c, 0xd9, 0x8f, 0x00, 0xb2, 0x04, 0xe9, 0x80, 0x09,
      0x98, 0xec, 0xf8, 0x42, 0x7e]
    rsaSize := fun _ => 128
    rsaVerify := fun _ _ _ _ => false }

/-! ## Clauses -/

/-- The wrapping loop of `transformClause` over the literals of a body. -/
def wrapClauses (pre : Str) : List Str → Str
  | [] => []
  | [c] => pre ++ ',' :: c ++ ")".toList ++ ".".toList
  | c :: cs => pre ++ ',' :: c ++ ")".toList ++ ",".toList ++ wrapClauses pre cs

/-- The text `transformClause` builds under a key digest. -/
def binderClause (keyDigest pClause : Str) : Option Str :=
  let pre := "says(".toList ++ keyDigest
  if (find ":-".toList pClause).isSome then do
    let r ← Rule.make pClause
    let quoted := (find r.head r.body).isSome
    if quoted then
      return pre ++ ",".toList ++ r.head ++ "):-".toList ++ r.body
    else
      return pre ++ ",".toList ++ r.head ++ "):-".toList ++ wrapClauses pre r.clauses
  else some (pre ++ ",".toList ++ pClause.dropLast ++ ").".toList)

/-- Transforms a clause into binder form (APPENDIX B of binder Paper). -/
def transformClause (policy : Policy) (pClause : Str) : Option (Str × Policy) := do
  let retVal ← binderClause policy.keyDigest pClause
  if (find ":-".toList pClause).isSome then
    let _anotherRule ← Rule.make retVal
    let r ← Rule.make retVal
    return (retVal, policy.addRule r)
  else return (retVal, policy.addFact retVal)

/-- The loop of `verifyCredential` over the clauses of one certificate. -/
def transformClauses : Policy → Certificate → List Str → Option (Policy × Certificate)
  | policy, certPtr, [] => some (policy, certPtr)
  | policy, certPtr, clause :: rest => do
      let (binder, policy) ← transformClause policy clause
      transformClauses policy (certPtr.addTransformedCls binder) rest

/-! ## The service -/

structure SecurityService where
  policyStr : Str
  policy : Option Policy
  credPtr : Option Credential
  deriving DecidableEq

namespace SecurityService

def empty : SecurityService := { policyStr := [], policy := none, credPtr := none }

/-- Initialize the policy; `none` where the constructor of the policy fails. -/
def setPolicy (ss : SecurityService) (pPolicyStr : Str) : Option SecurityService := do
  let policy ← Policy.make pPolicyStr
  return { ss with policyStr := pPolicyStr, policy := some policy }

end SecurityService

/-- `tmp >= start && tmp < stop` for the current time as `mktime(gmtime(_))` gives it. -/
def validTime (clib : CLib) (curTime : Int) (certPtr : Certificate) : Bool :=
  let tmp := clib.mktime (clib.gmtime curTime)
  certPtr.startTimeSec ≤ tmp && tmp < certPtr.stopTimeSec

/-- One pass of the loop of `verifyCredential`: the verdict on a certificate, with
    the policy and the certificate it leaves. A null policy is dereferenced only
    for a certificate that passes. -/
def verifyCertificate (o : OpenSSL) (clib : CLib) (validate : Bool) (curTime : Int)
    (policy : Option Policy) (certPtr : Certificate) :
    Option (Bool × Option Policy × Certificate) :=
  if validate && !validTime clib curTime certPtr then some (false, policy, certPtr)
  else if verifySig o certPtr.pubKey certPtr.signature certPtr.certStr then do
    let certPtr := certPtr.setKeyDigest (getKeyDigest o certPtr.pubKey)
    let policy ← policy
    let (policy, certPtr) ←
      transformClauses (policy.setKeyDigest certPtr.keyDigest) certPtr certPtr.clauses
    return (true, some policy, certPtr)
  else some (false, policy, certPtr)

/-- The loop of `verifyCredential` from certificate `i` on. -/
def verifyCertificates (o : OpenSSL) (clib : CLib) (validate : Bool) (clock : Nat → Int) :
    Nat → Option Policy → List Certificate → Option (Bool × Option Policy × List Certificate)
  | _, policy, [] => some (true, policy, [])
  | i, policy, certPtr :: rest => do
      let (retVal, policy, certPtr) ←
        verifyCertificate o clib validate (clock i) policy certPtr
      let (others, policy, rest) ← verifyCertificates o clib validate clock (i + 1) policy rest
      return (retVal && others, policy, certPtr :: rest)

/-- Verifies a credential. `clock i` is the time read for the certificate at `i`; the
    credential is left, changed, in `credPtr`. -/
def verifyCredential (o : OpenSSL) (clib : CLib) (validate : Bool) (clock : Nat → Int)
    (ss : SecurityService) (pCred : Option Credential) : Option (Bool × SecurityService) :=
  match pCred with
  | none => some (true, ss)
  | some c => do
      let (retVal, policy, certificates) ←
        verifyCertificates o clib validate clock 0 ss.policy c.certificates
      let c := { c.setKeyDigest (getKeyDigest o c.pubKey) with certificates := certificates }
      return (retVal, { ss with policy := policy, credPtr := some c })

/-! ## Challenges -/

/-- The character for one random number. -/
def challengeChar (nextRand : Nat) : Char :=
  if nextRand % 5 = 0 then '@'
  else if nextRand % 3 = 0 then '!'
  else if nextRand % 2 = 0 then '?'
  else '*'

/-- Generates a random challenge message. `rand i` is the generator's answer to its
    `i`-th call since it was seeded, and `draws` the number of calls so far. -/
def generateChallenge (rand : Nat → Nat) (draws : Nat) : Str × Nat :=
  ((List.range maxChallengeBuf).map fun i => challengeChar (rand (draws + i)),
    draws + maxChallengeBuf)

/-! ## Queries -/

/-- The loop of `generateQuery` over the characters it looks at. -/
def scanArgs : Str → Str → List Str → List Str
  | [], _, args => args
  | c :: rest, tmp, args =>
      if (c = ',' ∧ tmp ≠ []) ∨ c = ')' then scanArgs rest [] (args ++ [tmp])
      else if c ≠ '(' ∧ c ≠ ')' then scanArgs rest (tmp ++ [c]) args
      else scanArgs rest tmp args

/-- The characters the loop looks at: those behind the first `(`, or all of them when
    there is none, for then `pos++` takes `npos` to 0; and last the NUL at `msg[length]`. -/
def scanned (msg : Str) : Str :=
  msg.drop (afterFind (findFirstOf ['('] msg)) ++ [nul]

/-- Constructs an XSB query string. Without a credential the digest is read through a
    null pointer. -/
def generateQuery (credPtr : Option Credential) (msg : Str) : Option Str :=
  if msg ≠ [] then
    match find endClientRequestS msg, findFirstOf "request".toList msg with
    | some idx, some pos => do
        let msg := substrBetween msg pos (some idx)
        let args := scanArgs (scanned msg) [] []
        let credPtr ← credPtr
        return "allow(".toList ++ credPtr.keyDigest ++ ",".toList ++ [','].intercalate args ++
          ").".toList
    | _, _ => some []
  else some []

/-- The command line `executeQuery` builds. -/
def queryCommand (pQuery : Str) : Str :=
  "xsb --quietload --nobanner --noprompt -e ".toList ++
    ("\"[".toList ++ tmpFileS ++ "]. ".toList ++ pQuery ++ " halt.\"".toList)

/-- What one `fgets` with room for `k` characters takes from the output. -/
def fgets : Nat → Str → Str × Str
  | 0, out => ([], out)
  | _ + 1, [] => ([], [])
  | k + 1, c :: out =>
      if c = '\n' then ([c], out)
      else
        let (line, rest) := fgets k out
        (c :: line, rest)

theorem fgets_rest_le (k : Nat) (out : Str) : (fgets k out).2.length ≤ out.length := by
  induction k generalizing out with
  | zero => exact Nat.le_refl _
  | succ k ih =>
      cases out with
      | nil => exact Nat.le_refl _
      | cons c out =>
          simp only [fgets]
          split
          · simp
          · have := ih out
            simp only [List.length_cons]
            omega

/-- `while(fgets(line, sizeof(line), f)) ss << line;` -/
def readOutput : Str → Str
  | [] => []
  | c :: out =>
      let line := fgets (maxLine - 1) (c :: out)
      cstr line.1 ++ readOutput line.2
termination_by out => out.length
decreasing_by
  have := fgets_rest_le 126 out
  simp only [maxLine, fgets]
  split
  · simp
  · simp only [List.length_cons]
    omega

/-- The last three characters before the last newline. `pos - 3` wraps to a start past
    the end for a newline among the first three characters. -/
def lastAnswer (res : Str) : Option Str :=
  match findLastOf '\n' res with
  | some pos => if pos < 3 then none else substr res (pos - 3) 3
  | none => some res

/-- Thread process for executing XSB queries: whether it sets `qStats`, for the output
    it reads. Without a pipe it only reports an error. -/
def executeQueryProc (f : Option Str) : Option Bool :=
  match f with
  | some out => (lastAnswer (readOutput out)).map fun res => decide (res = "yes".toList)
  | none => some false

/-- Executes an XSB query. The result is `qStats`, which starts as false; a thread that
    ends with an exception, or is signalled before its end, takes the process with it. -/
def executeQuery (pQuery : Str) : Server Bool :=
  if pQuery = [] then pure false
  else do
    let (_, ending) ← Prog.perform (C := Call) (.popen (cstr (queryCommand pQuery)))
    match ending with
    | .noThread => pure false
    | .finished out =>
        match executeQueryProc out with
        | some qStats => pure qStats
        | none => abort
    | .unfinished => abort

/-! ## The program file -/

/-- What `writeBinderFile` puts into the file. -/
def binderText (policy : Policy) (credPtr : Credential) : Str :=
  policy.policyStr ++ "\n".toList ++ "/* Begin Transformed Rules */".toList ++ "\n".toList ++
    credPtr.certificates.flatMap fun certPtr =>
      certPtr.transformedCls.flatMap fun tc => tc ++ "\n".toList

/-- Writes a policy and transformed clauses to a file. Opening the file empties it
    even when there is no credential. -/
def writeBinderFile (ss : SecurityService) : Server Bool :=
  match ss.credPtr, ss.policy with
  | some credPtr, some policy => Prog.perform (C := Call) (.saveBinder (binderText policy credPtr))
  | some _, none => do
      let isOpen ← Prog.perform (C := Call) (.saveBinder [])
      if isOpen then abort else pure false
  | none, _ => do
      let _ ← Prog.perform (C := Call) (.saveBinder [])
      pure false

end RepositoryManager
