import RepositoryManager.SecurityService

/-! # Verifying and exporting a credential

`verifyCredential` never throws: every clause with a `:-` makes a rule, and so does
its transform. One lemma for each level (clause, certificate, list of certificates)
says what is returned and what is left behind. The policy is written for each
certificate and read for each clause; that the digest read is the one of the same
certificate is the invariant of the inner loop.
-/

namespace RepositoryManager

open ByteString Interaction Interaction.Prog

/-! ## Clauses -/

theorem Rule.make_of_found {s : Str} (found : (find ":-".toList s).isSome) :
    ∃ r, Rule.make s = some r := by
  obtain ⟨i, at_i⟩ := Option.isSome_iff_exists.mp found
  obtain ⟨head, body, rfl, _, absent⟩ := find_pair_split (x := ':') (y := '-') at_i
  exact ⟨_, Rule.make_split absent⟩

theorem binderClause_total (keyDigest pClause : Str) :
    ∃ retVal, binderClause keyDigest pClause = some retVal := by
  cases found : (find ":-".toList pClause).isSome with
  | false =>
      simp only [binderClause, found, Bool.false_eq_true, if_false]
      exact ⟨_, rfl⟩
  | true =>
      obtain ⟨r, made⟩ := Rule.make_of_found found
      simp only [binderClause, found, made, if_true, Option.bind_eq_bind, Option.bind_some]
      split
      · exact ⟨_, rfl⟩
      · exact ⟨_, rfl⟩

theorem binderClause_imp {keyDigest pClause retVal : Str}
    (transformed : binderClause keyDigest pClause = some retVal)
    (found : (find ":-".toList pClause).isSome) : (find ":-".toList retVal).isSome := by
  obtain ⟨r, made⟩ := Rule.make_of_found found
  simp only [binderClause, found, made, if_true, Option.bind_eq_bind, Option.bind_some] at transformed
  have sign : ∀ before after : Str,
      (find ":-".toList (before ++ "):-".toList ++ after)).isSome := by
    intro before after
    rw [find_isSome_iff]
    exact ⟨before ++ [')'], after, by simp⟩
  split at transformed
  · cases transformed
    exact sign _ _
  · cases transformed
    exact sign _ _

theorem transformClause_eq (policy : Policy) (pClause : Str) :
    ∃ retVal policy', transformClause policy pClause = some (retVal, policy') ∧
      binderClause policy.keyDigest pClause = some retVal ∧
      policy'.keyDigest = policy.keyDigest ∧ policy'.policyStr = policy.policyStr := by
  obtain ⟨retVal, transformed⟩ := binderClause_total policy.keyDigest pClause
  cases found : (find ":-".toList pClause).isSome with
  | false =>
      refine ⟨retVal, policy.addFact retVal, ?_, transformed, rfl, rfl⟩
      simp only [transformClause, transformed, found, Option.bind_eq_bind, Option.bind_some,
        Bool.false_eq_true, if_false]
      rfl
  | true =>
      obtain ⟨r, made⟩ := Rule.make_of_found (binderClause_imp transformed found)
      refine ⟨retVal, policy.addRule r, ?_, transformed, rfl, rfl⟩
      simp only [transformClause, transformed, found, made, Option.bind_eq_bind, Option.bind_some,
        if_true]
      rfl

/-- The lines that the clauses of a certificate become under one digest. -/
def IsExport (keyDigest : Str) (clauses lines : List Str) : Prop :=
  lines.map some = clauses.map (binderClause keyDigest)

theorem transformClauses_eq (policy : Policy) (certPtr : Certificate) (clauses : List Str) :
    ∃ lines policy', transformClauses policy certPtr clauses =
        some (policy', { certPtr with transformedCls := certPtr.transformedCls ++ lines }) ∧
      IsExport policy.keyDigest clauses lines ∧ policy'.policyStr = policy.policyStr := by
  induction clauses generalizing policy certPtr with
  | nil => exact ⟨[], policy, by simp [transformClauses], rfl, rfl⟩
  | cons clause rest ih =>
      obtain ⟨line, policy', now, transformed, sameKey, sameText⟩ :=
        transformClause_eq policy clause
      obtain ⟨lines, policy'', later, exported, stillText⟩ :=
        ih policy' (certPtr.addTransformedCls line)
      refine ⟨line :: lines, policy'', ?_, ?_, stillText.trans sameText⟩
      · simp only [transformClauses, now, Option.bind_eq_bind, Option.bind_some, later]
        simp [Certificate.addTransformedCls]
      · rw [IsExport, sameKey] at exported
        simp only [IsExport, List.map_cons, transformed, exported]

/-! ## Certificates -/

/-- What is asked of a certificate at a time: that it is valid then, when times are
    validated, and that its signature is. -/
def Passes (o : OpenSSL) (clib : CLib) (validate : Bool) (curTime : Int) (cert : Certificate) :
    Prop :=
  (validate = true → cert.startTimeSec ≤ clib.mktime (clib.gmtime curTime) ∧
    clib.mktime (clib.gmtime curTime) < cert.stopTimeSec) ∧
  verifySig o cert.pubKey cert.signature cert.certStr = true

/-- What a certificate becomes when it passes: its clauses are exported under the
    digest of its own key. -/
structure Exported (o : OpenSSL) (cert cert' : Certificate) : Prop where
  clauses : cert'.clauses = cert.clauses
  pubKey : cert'.pubKey = cert.pubKey
  keyDigest : cert'.keyDigest = getKeyDigest o cert.pubKey
  lines : ∃ lines, cert'.transformedCls = cert.transformedCls ++ lines ∧
    IsExport (getKeyDigest o cert.pubKey) cert.clauses lines

section Verify

variable (o : OpenSSL) (clib : CLib) (validate : Bool)

/-- The tests of `verifyCredential` on a certificate. -/
def passes (curTime : Int) (cert : Certificate) : Bool :=
  !(validate && !validTime clib curTime cert) &&
    verifySig o cert.pubKey cert.signature cert.certStr

variable {o clib validate}

theorem passes_iff {curTime : Int} {cert : Certificate} :
    passes o clib validate curTime cert = true ↔ Passes o clib validate curTime cert := by
  simp only [passes, Passes, validTime, Bool.and_eq_true, Bool.not_eq_true', Bool.and_eq_false_iff]
  refine and_congr_left fun _ => ?_
  cases validate with
  | false => simp
  | true => simp

theorem verifyCertificate_failed {curTime : Int} {cert : Certificate}
    (fails : passes o clib validate curTime cert = false) (policy : Option Policy) :
    verifyCertificate o clib validate curTime policy cert = some (false, policy, cert) := by
  rw [passes, Bool.and_eq_false_iff, Bool.not_eq_false'] at fails
  rw [verifyCertificate]
  rcases fails with early | unsigned
  · rw [if_pos early]
  · split
    · rfl
    · rw [if_neg (by simp [unsigned])]

theorem verifyCertificate_passed {curTime : Int} {cert : Certificate}
    (pass : passes o clib validate curTime cert = true) (policy : Option Policy) :
    verifyCertificate o clib validate curTime policy cert =
      policy.bind fun policy =>
        (transformClauses (policy.setKeyDigest (getKeyDigest o cert.pubKey))
          (cert.setKeyDigest (getKeyDigest o cert.pubKey)) cert.clauses).map fun after =>
            (true, some after.1, after.2) := by
  rw [passes, Bool.and_eq_true, Bool.not_eq_true'] at pass
  rw [verifyCertificate, if_neg (by simp [pass.1]), if_pos pass.2]
  cases policy with
  | none => rfl
  | some policy =>
      simp only [Option.bind_eq_bind, Option.bind_some, Certificate.setKeyDigest]
      cases transformClauses _ _ cert.clauses <;> rfl

variable (o clib validate)

theorem verifyCertificate_eq (curTime : Int) (policy : Policy) (cert : Certificate) :
    ∃ retVal policy' cert',
      verifyCertificate o clib validate curTime (some policy) cert =
        some (retVal, some policy', cert') ∧
      policy'.policyStr = policy.policyStr ∧
      (retVal = true ↔ Passes o clib validate curTime cert) ∧
      (retVal = true → Exported o cert cert') := by
  cases pass : passes o clib validate curTime cert with
  | false =>
      refine ⟨false, policy, cert, verifyCertificate_failed pass _, rfl, ?_, nofun⟩
      rw [← passes_iff, pass]
  | true =>
      obtain ⟨lines, policy', done, exported, sameText⟩ :=
        transformClauses_eq (policy.setKeyDigest (getKeyDigest o cert.pubKey))
          (cert.setKeyDigest (getKeyDigest o cert.pubKey)) cert.clauses
      refine ⟨true, policy', { cert with
        keyDigest := getKeyDigest o cert.pubKey, transformedCls := cert.transformedCls ++ lines },
        ?_, sameText, iff_of_true rfl (passes_iff.mp pass),
        fun _ => ⟨rfl, rfl, rfl, lines, rfl, exported⟩⟩
      rw [verifyCertificate_passed pass, Option.bind_some, done]
      rfl

theorem verifyCertificates_eq (clock : Nat → Int) (i : Nat) (policy : Policy)
    (certs : List Certificate) :
    ∃ retVal policy' certs',
      verifyCertificates o clib validate clock i (some policy) certs =
        some (retVal, some policy', certs') ∧
      policy'.policyStr = policy.policyStr ∧
      (retVal = true ↔
        ∀ j cert, certs[j]? = some cert → Passes o clib validate (clock (i + j)) cert) ∧
      (retVal = true → List.Forall₂ (Exported o) certs certs') := by
  induction certs generalizing i policy with
  | nil => exact ⟨true, policy, [], rfl, rfl, by simp, fun _ => .nil⟩
  | cons cert rest ih =>
      obtain ⟨first, policy', cert', now, text, passes, exported⟩ :=
        verifyCertificate_eq o clib validate (clock i) policy cert
      obtain ⟨others, policy'', rest', later, text', pass, exports⟩ := ih (i + 1) policy'
      refine ⟨first && others, policy'', cert' :: rest', ?_, text'.trans text, ?_, ?_⟩
      · simp only [verifyCertificates, now, later, Option.bind_eq_bind, Option.bind_some]
        rfl
      · rw [Bool.and_eq_true, passes, pass]
        constructor
        · rintro ⟨here, there⟩ j c at_j
          cases j with
          | zero =>
              cases at_j
              exact here
          | succ j => simpa only [Nat.add_assoc, Nat.add_comm 1] using there j c at_j
        · intro all
          refine ⟨all 0 cert rfl, fun j c at_j => ?_⟩
          simpa only [Nat.add_assoc, Nat.add_comm 1] using all (j + 1) c at_j
      · intro both
        rw [Bool.and_eq_true] at both
        exact .cons (exported both.1) (exports both.2)

theorem setPolicy_policy {before ss : SecurityService} {policyText : Str}
    (set : before.setPolicy policyText = some ss) :
    ∃ policy, ss.policy = some policy ∧ policy.policyStr = policyText := by
  simp only [SecurityService.setPolicy, Option.bind_eq_bind, Option.bind_eq_some_iff,
    Option.pure_def, Option.some.injEq] at set
  obtain ⟨policy, made, rfl⟩ := set
  exact ⟨policy, rfl, Policy.make_policyStr made⟩

theorem exported_fresh {o : OpenSSL} {certs certs' : List Certificate}
    (fresh : ∀ cert ∈ certs, cert.transformedCls = [])
    (exported : List.Forall₂ (Exported o) certs certs') :
    List.Forall₂ (fun cert cert' : Certificate =>
      IsExport (getKeyDigest o cert.pubKey) cert.clauses cert'.transformedCls) certs certs' := by
  induction exported with
  | nil => exact .nil
  | cons first _ ih =>
      refine .cons ?_ (ih fun cert later => fresh cert (List.mem_cons_of_mem _ later))
      obtain ⟨lines, written, isExport⟩ := first.lines
      rw [fresh _ List.mem_cons_self, List.nil_append] at written
      rw [written]
      exact isExport

/-- What `verifyCredential` does with a credential under a policy. -/
theorem verifyCredential_eq (clock : Nat → Int) {ss : SecurityService} {policy : Policy}
    (set : ss.policy = some policy) (c : Credential) :
    ∃ retVal ss' policy' c', verifyCredential o clib validate clock ss (some c) =
        some (retVal, ss') ∧
      ss'.policy = some policy' ∧ policy'.policyStr = policy.policyStr ∧
      ss'.credPtr = some c' ∧ c'.pubKey = c.pubKey ∧ c'.keyDigest = getKeyDigest o c.pubKey ∧
      (retVal = true ↔ ∀ j cert, c.certificates[j]? = some cert →
        Passes o clib validate (clock j) cert) ∧
      (retVal = true → List.Forall₂ (Exported o) c.certificates c'.certificates) := by
  obtain ⟨retVal, policy', certs', done, text, passes, exported⟩ :=
    verifyCertificates_eq o clib validate clock 0 policy c.certificates
  let c' : Credential := { c with
    keyDigest := getKeyDigest o c.pubKey, certificates := certs' }
  refine ⟨retVal, { ss with policy := some policy', credPtr := some c' }, policy', c', ?_, rfl,
    text, rfl, rfl, rfl, ?_, exported⟩
  · simp only [verifyCredential, set, done, Option.bind_eq_bind, Option.bind_some]
    rfl
  · simpa only [Nat.zero_add] using passes

end Verify

/-! ## The program file -/

/-- The text of the file for a policy text and lines: the policy, the marker, the lines. -/
def programText (policyStr : Str) (lines : List Str) : Str :=
  policyStr ++ "\n".toList ++ "/* Begin Transformed Rules */".toList ++ "\n".toList ++
    lines.flatMap fun line => line ++ "\n".toList

theorem binderText_eq (policy : Policy) (credPtr : Credential) :
    binderText policy credPtr =
      programText policy.policyStr (credPtr.certificates.flatMap Certificate.transformedCls) := by
  simp only [binderText, programText, List.flatMap_assoc]

theorem returns_writeBinderFile {ss : SecurityService} {h : History} :
    Returns (writeBinderFile ss) h true ↔
      ∃ policy c, ss.policy = some policy ∧ ss.credPtr = some c ∧
        h = [⟨.saveBinder (binderText policy c), true⟩] := by
  constructor
  · intro run
    cases hasCred : ss.credPtr with
    | none =>
        simp only [writeBinderFile, hasCred, perform_bind, returns_call] at run
        obtain ⟨_, _, _, rest⟩ := run
        cases (returns_ret.mp rest).2
    | some c =>
        cases hasPolicy : ss.policy with
        | none =>
            simp only [writeBinderFile, hasCred, hasPolicy, perform_bind, returns_call] at run
            obtain ⟨isOpen, _, _, rest⟩ := run
            cases isOpen with
            | false => cases (returns_ret.mp rest).2
            | true =>
                obtain ⟨r, _⟩ := returns_call.mp rest
                cases r
        | some policy =>
            simp only [writeBinderFile, hasCred, hasPolicy, perform, returns_call] at run
            obtain ⟨r, _, rfl, rest⟩ := run
            obtain ⟨rfl, rfl⟩ := returns_ret.mp rest
            exact ⟨policy, c, rfl, rfl, rfl⟩
  · rintro ⟨policy, c, hasPolicy, hasCred, rfl⟩
    rw [writeBinderFile, hasCred, hasPolicy]
    exact .call (.refl _)

/-- Verification and export. The verdict is that of all certificates; when it is good,
    each certificate has the transforms of its own clauses under its own digest, and
    these are what a successful `writeBinderFile` writes below the policy. -/
theorem verifyCredential_exports (o : OpenSSL) (clib : CLib) (validate : Bool)
    (clock : Nat → Int) {before ss : SecurityService} {policyText : Str}
    (set : before.setPolicy policyText = some ss) (c : Credential) (fresh : c.Fresh) :
    ∃ retVal ss' c', verifyCredential o clib validate clock ss (some c) = some (retVal, ss') ∧
      ss'.credPtr = some c' ∧
      (retVal = true ↔ ∀ j cert, c.certificates[j]? = some cert →
        Passes o clib validate (clock j) cert) ∧
      (retVal = true →
        List.Forall₂ (fun cert cert' : Certificate =>
          IsExport (getKeyDigest o cert.pubKey) cert.clauses cert'.transformedCls)
          c.certificates c'.certificates ∧
        ∀ h, Returns (writeBinderFile ss') h true ↔
          h = [⟨.saveBinder (programText policyText
            (c'.certificates.flatMap Certificate.transformedCls)), true⟩]) := by
  obtain ⟨policy, hasPolicy, sameText⟩ := setPolicy_policy set
  obtain ⟨retVal, ss', policy', c', done, hasPolicy', text, hasCred, -, -, passes, exported⟩ :=
    verifyCredential_eq o clib validate clock hasPolicy c
  refine ⟨retVal, ss', c', done, hasCred, passes, fun verified => ⟨?_, fun h => ?_⟩⟩
  · exact exported_fresh fresh (exported verified)
  · simp only [returns_writeBinderFile, hasPolicy', hasCred, Option.some.injEq, exists_and_left,
      exists_eq_left']
    rw [binderText_eq, text, sameText]

theorem exports_lines {o : OpenSSL} {certs certs' : List Certificate}
    (exported : List.Forall₂ (fun cert cert' : Certificate =>
      IsExport (getKeyDigest o cert.pubKey) cert.clauses cert'.transformedCls) certs certs') :
    (certs'.flatMap Certificate.transformedCls).map some =
      certs.flatMap fun cert => cert.clauses.map (binderClause (getKeyDigest o cert.pubKey)) := by
  induction exported with
  | nil => rfl
  | cons first _ ih =>
      rw [List.flatMap_cons, List.flatMap_cons, List.map_append, ih]
      exact congrArg (· ++ _) first

def firstKey : Str := pkHeaderS ++ "\nMCgxAQ\n".toList ++ pkEndS

def secondKey : Str := pkHeaderS ++ "\nMCgxAg\n".toList ++ pkEndS

/-- OpenSSL with two keys. A signature begins with the name of the key that made it. -/
def OpenSSL.twoKeys : OpenSSL where
  Key := Bool
  bioNewMemBuf := fun _ => true
  pemReadBioRsaPubkey := fun text =>
    if text = firstKey then some true else if text = secondKey then some false else none
  bioRead := some
  md5 := fun text len _ => UInt8.ofNat ((text.take len).foldl (fun n c => n + c.toNat) 0)
  rsaSize := fun _ => 128
  rsaVerify := fun _ sigbuf _ isFirst =>
    (if isFirst then "first" else "second").toList.isPrefixOf sigbuf

/-- A certificate of each key. One clause has a `:-` in a name. -/
def twoSigned : Credential :=
  { pubKey := firstKey, keyDigest := []
    certificates := [
      { Certificate.empty with
        clauses := ["p(a).".toList, "p(X):-q(X),says(k,r(X)).".toList], stopTimeSec := 1
        signature := "first".toList, pubKey := firstKey
        certStr := "p(a).p(X):-q(X),says(k,r(X)).".toList },
      { Certificate.empty with
        clauses := ["q(b:-c):-r(b).".toList], stopTimeSec := 1
        signature := "second".toList, pubKey := secondKey, certStr := "q(b:-c):-r(b).".toList }] }

/-- ` allow(K,Op,File):-says(K,p(a)).` -/
def twoSignedPolicy : Str := " allow(K,Op,File):-says(K,p(a)).\n".toList

theorem twoSigned_passes (j : Nat) {cert : Certificate}
    (at_j : twoSigned.certificates[j]? = some cert) :
    Passes .twoKeys .epoch true 0 cert := by
  cases j with
  | zero =>
      cases at_j
      exact ⟨fun _ => by decide, by decide +kernel⟩
  | succ j =>
      cases j with
      | zero =>
          cases at_j
          exact ⟨fun _ => by decide, by decide +kernel⟩
      | succ j => cases at_j

/-- The lines that `twoSigned` adds to a policy. -/
def twoSignedLines : List Str :=
  let first := "says(".toList ++ getKeyDigest .twoKeys firstKey
  let second := "says(".toList ++ getKeyDigest .twoKeys secondKey
  [first ++ ",p(a)).".toList,
    first ++ ",p(X)):-".toList ++ first ++ ",q(X)),".toList ++ first ++ ",says(k,r(X))).".toList,
    second ++ ",q(b):-".toList ++ second ++ ",c):-r(b)).".toList]

theorem twoSigned_lines :
    (twoSigned.certificates.flatMap fun cert =>
      cert.clauses.map (binderClause (getKeyDigest .twoKeys cert.pubKey))) =
      twoSignedLines.map some := by
  decide +kernel

theorem verifyCredential_exports_twoSigned :
    ∃ ss ss', SecurityService.empty.setPolicy twoSignedPolicy = some ss ∧
      verifyCredential .twoKeys .epoch true (fun _ => 0) ss (some twoSigned) = some (true, ss') ∧
      ∀ h, Returns (writeBinderFile ss') h true ↔
        h = [⟨.saveBinder (programText twoSignedPolicy twoSignedLines), true⟩] := by
  have loads : (SecurityService.empty.setPolicy twoSignedPolicy).isSome := by decide +kernel
  obtain ⟨ss, set⟩ := Option.isSome_iff_exists.mp loads
  obtain ⟨retVal, ss', c', done, -, passes, exports⟩ :=
    verifyCredential_exports .twoKeys .epoch true (fun _ => 0) set twoSigned
      (by simp [Credential.Fresh, twoSigned, Certificate.empty])
  obtain rfl : retVal = true := passes.mpr fun j cert at_j => twoSigned_passes j at_j
  obtain ⟨exported, writes⟩ := exports rfl
  have lines := List.map_injective_iff.mpr (fun _ _ => Option.some.inj)
    ((exports_lines exported).trans twoSigned_lines)
  rw [lines] at writes
  exact ⟨ss, ss', set, done, writes⟩

end RepositoryManager
