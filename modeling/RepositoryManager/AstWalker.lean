import RepositoryManager.Credential

/-! # The walk over the syntax tree

`AstWalker.h`. The root has a text and a flat list of child texts. One index runs
through the children; it, the string stream and the label are shared by all
methods. Each loop spends fuel: `none` is a loop that has not ended yet.
-/

namespace RepositoryManager

open ByteString

/-- The tree the parser returns: the text of the root and of each child. -/
structure Tree where
  text : Str
  children : List Str
  deriving DecidableEq

/-- The index `pIdx`, the string stream, the label, and how often
    `Error: NULL Child in AST` was printed. -/
structure Walker where
  idx : Nat
  sstr : Str
  label : Str
  nullChildren : Nat
  deriving DecidableEq

namespace AstWalker

variable (t : Tree)

/-- Leaves the text of the child at `pIdx` in the string stream. -/
def getChildStr (pIdx : Nat) (w : Walker) : Walker :=
  match t.children[pIdx]? with
  | some s => { w with sstr := s }
  | none => { w with sstr := [], nullChildren := w.nullChildren + 1 }

/-- `getChildStr(pIdx++)` -/
def nextChildStr (w : Walker) : Walker :=
  { getChildStr t w.idx w with idx := w.idx + 1 }

/-- Retrieves the string value of a clause, up to and including the `.` child. -/
def getClauseStr : Nat → Str → Walker → Option (Str × Walker)
  | 0, _, _ => none
  | fuel + 1, retVal, w =>
      let w := getChildStr t w.idx w
      let retVal := retVal ++ w.sstr
      let w := nextChildStr t w
      if w.sstr ≠ ['.'] then getClauseStr fuel retVal w else some (retVal, w)

/-- `while(getChildStr(pIdx) != START_TIME_S) retVal->addClause(getClauseStr(pIdx));` -/
def addClauses : Nat → Certificate → Walker → Option (Certificate × Walker)
  | 0, _, _ => none
  | fuel + 1, retVal, w =>
      let w := getChildStr t w.idx w
      if w.sstr ≠ startTimeS then
        match getClauseStr t fuel [] w with
        | some (clause, w) => addClauses fuel (retVal.addClause clause) w
        | none => none
      else some (retVal, w)

/-- `while(getChildStr(pIdx++) != stop) append("\n" + sstr.str());` -/
def appendUntil (stop : Str) : Nat → Str → Walker → Option (Str × Walker)
  | 0, _, _ => none
  | fuel + 1, acc, w =>
      let w := nextChildStr t w
      if w.sstr ≠ stop then appendUntil stop fuel (acc ++ '\n' :: w.sstr) w else some (acc, w)

/-- The branches on the label inside the loop of `makeCertificate`. -/
def makeCertificateStep (fuel : Nat) (retVal : Certificate) (w : Walker) :
    Option (Certificate × Walker) :=
  if w.label = clauseS then addClauses t fuel retVal w
  else if w.label = startTimeS then do
    let (clause, w) ← getClauseStr t fuel [] w
    return (retVal.appendToStartTime clause, w)
  else if w.label = stopTimeS then do
    let (clause, w) ← getClauseStr t fuel [] w
    return (retVal.appendToStopTime clause, w)
  else if w.label = pkHeaderS then do
    let (lines, w) ← appendUntil t sigS fuel [] w
    return (retVal.appendToPubKey (w.label ++ lines), { w with idx := w.idx - 1 })
  else if w.label = sigS then do
    let (lines, w) ← appendUntil t endSigS fuel [] w
    return (retVal.appendToSignature (w.label ++ lines ++ '\n' :: endSigS), w)
  else some (retVal, { w with idx := w.idx + 1 })

/-- Constructs a certificate. -/
def makeCertificate : Nat → Certificate → Walker → Option (Certificate × Walker)
  | 0, _, _ => none
  | fuel + 1, retVal, w =>
      if w.idx < t.children.length then
        let w := nextChildStr t w
        if w.sstr ≠ endCertS then
          match makeCertificateStep t fuel retVal { w with label := w.sstr } with
          | some (retVal, w) => makeCertificate fuel retVal w
          | none => none
        else some (retVal, w)
      else some (retVal, w)

/-- `while(getChildStr(pIdx) != CERT_S) appendToPubKey("\n" + getChildStr(pIdx++));` -/
def appendUntilCert : Nat → Credential → Walker → Option (Credential × Walker)
  | 0, _, _ => none
  | fuel + 1, pCredential, w =>
      let w := getChildStr t w.idx w
      if w.sstr ≠ certS then
        let w := nextChildStr t w
        appendUntilCert fuel (pCredential.appendToPubKey ('\n' :: w.sstr)) w
      else some (pCredential, w)

/-- The branches on the label inside the loop of `makeCredential`. -/
def makeCredentialStep (fuel : Nat) (pCredential : Credential) (w : Walker) :
    Option (Credential × Walker) :=
  if w.label = pkHeaderS then appendUntilCert t fuel (pCredential.appendToPubKey w.label) w
  else if w.label = certS then do
    let (cert, w) ← makeCertificate t fuel .empty w
    let w := getChildStr t (w.idx - 1) { w with idx := w.idx - 1 }
    return (pCredential.addCertificate cert, { w with label := w.sstr })
  else some (pCredential, w)

/-- Constructs a credential. -/
def makeCredential : Nat → Credential → Walker → Option (Credential × Walker)
  | 0, _, _ => none
  | fuel + 1, pCredential, w =>
      if w.idx < t.children.length ∧ w.label ≠ endS then
        let w := nextChildStr t w
        match makeCredentialStep t fuel pCredential { w with label := w.sstr } with
        | some (pCredential, w) => makeCredential fuel pCredential w
        | none => none
      else some (pCredential, w)

/-- Retrieves a credential; the inner `none` is the null pointer, for a root that
    is not `CREDENTIAL`. -/
def getCredential (mktime : Tm → Int) (now : Tm) (fuel : Nat) : Option (Option Credential) :=
  let w : Walker := { idx := 0, sstr := t.text, label := [], nullChildren := 0 }
  if w.sstr = credentialS then
    match makeCredential t fuel .empty w with
    | some (retVal, _) => some (some (retVal.finalize mktime now))
    | none => none
  else some none

end AstWalker

end RepositoryManager
