import RepositoryManager.Utils

/-! # Certificates and credentials

`Certificate.h` and `Credential.h`. A certificate is filled field by field while
the syntax tree is walked, and finished by `setCertificateStr`, which builds the
text that is signed.
-/

namespace RepositoryManager

open ByteString

structure Certificate where
  clauses : List Str
  transformedCls : List Str
  startTimeSec : Int
  stopTimeSec : Int
  startTime : Str
  stopTime : Str
  signature : Str
  pubKey : Str
  keyDigest : Str
  certStr : Str
  deriving DecidableEq

namespace Certificate

/-- `Certificate()`. The two second counts are set only by `setCertificateStr`. -/
def empty : Certificate :=
  { clauses := [], transformedCls := [], startTimeSec := 0, stopTimeSec := 0, startTime := [],
    stopTime := [], signature := [], pubKey := [], keyDigest := [], certStr := [] }

def addClause (c : Certificate) (clause : Str) : Certificate :=
  { c with clauses := c.clauses ++ [clause] }

def addTransformedCls (c : Certificate) (tc : Str) : Certificate :=
  { c with transformedCls := c.transformedCls ++ [tc] }

def appendToPubKey (c : Certificate) (s : Str) : Certificate := { c with pubKey := c.pubKey ++ s }

def appendToSignature (c : Certificate) (s : Str) : Certificate :=
  { c with signature := c.signature ++ s }

def appendToStartTime (c : Certificate) (s : Str) : Certificate :=
  { c with startTime := c.startTime ++ s }

def appendToStopTime (c : Certificate) (s : Str) : Certificate :=
  { c with stopTime := c.stopTime ++ s }

def setKeyDigest (c : Certificate) (kd : Str) : Certificate := { c with keyDigest := kd }

/-- Concatenates the certificate clauses and the two times into a single string. -/
def setCertificateStr (mktime : Tm → Int) (now : Tm) (c : Certificate) : Certificate :=
  let c := if c.certStr = [] then
      { c with certStr := c.clauses.flatten ++ (c.startTime ++ c.stopTime) }
    else c
  { c with
    startTimeSec := if c.startTime ≠ [] then getUTCTimeSec mktime now c.startTime else 0
    stopTimeSec := if c.stopTime ≠ [] then getUTCTimeSec mktime now c.stopTime else 0 }

end Certificate

structure Credential where
  pubKey : Str
  keyDigest : Str
  certificates : List Certificate
  deriving DecidableEq

namespace Credential

def empty : Credential := { pubKey := [], keyDigest := [], certificates := [] }

def appendToPubKey (c : Credential) (s : Str) : Credential := { c with pubKey := c.pubKey ++ s }

def setKeyDigest (c : Credential) (k : Str) : Credential := { c with keyDigest := k }

def addCertificate (c : Credential) (cert : Certificate) : Credential :=
  { c with certificates := c.certificates ++ [cert] }

/-- Finalize all unset values of the Credentials Certificates. -/
def finalize (mktime : Tm → Int) (now : Tm) (c : Credential) : Credential :=
  { c with certificates := c.certificates.map (Certificate.setCertificateStr mktime now) }

/-- No clause of the credential has been transformed yet, as when it comes from the
    walker. -/
def Fresh (c : Credential) : Prop := ∀ cert ∈ c.certificates, cert.transformedCls = []

end Credential

end RepositoryManager
