import RepositoryManager.Verification

/-! # What a rejected credential leaves behind

The loop of `verifyCredential` transforms the clauses of a certificate as soon as
that certificate passes, and undoes nothing when another one fails. Each transform
adds one rule or fact, so that their number tells whether anything was added.
-/

namespace RepositoryManager

open ByteString

/-- What `writeBinderFile` would write. Without a credential it only empties the file. -/
def programOf (ss : SecurityService) : Str :=
  match ss.credPtr, ss.policy with
  | some c, some policy => binderText policy c
  | _, _ => []

/-- The policy and the program text are those from before. -/
structure Untouched (before after : SecurityService) : Prop where
  policy : after.policy = before.policy
  program : programOf after = programOf before

/-- The lines of a credential in the program file. -/
def exportText (c : Credential) : Str :=
  (c.certificates.flatMap Certificate.transformedCls).flatMap fun line => line ++ "\n".toList

section Certificates

variable (o : OpenSSL) (clib : CLib) (validate : Bool)

/-- The clauses of the certificates that pass, from certificate `i` on. -/
def passingClauses (clock : Nat → Int) : Nat → List Certificate → List Str
  | _, [] => []
  | i, cert :: rest =>
      (if passes o clib validate (clock i) cert then cert.clauses else []) ++
        passingClauses clock (i + 1) rest

/-- The digest of the last certificate that passes, or else the given one. -/
def passingDigest (clock : Nat → Int) : Nat → Str → List Certificate → Str
  | _, keyDigest, [] => keyDigest
  | i, keyDigest, cert :: rest =>
      passingDigest clock (i + 1)
        (if passes o clib validate (clock i) cert then getKeyDigest o cert.pubKey else keyDigest)
        rest

/-- No certificate that passes has a clause, the last of them has the digest that the policy
    has already, and the credential before had the same lines in the program file. Without a
    policy no certificate may pass. -/
structure Spared (clock : Nat → Int) (before : SecurityService) (c : Credential) : Prop where
  clauses : passingClauses o clib validate clock 0 c.certificates = []
  digest : ∀ policy, before.policy = some policy →
    passingDigest o clib validate clock 0 policy.keyDigest c.certificates = policy.keyDigest
  program : before.policy ≠ none →
    ∃ old, before.credPtr = some old ∧ exportText old = exportText c

/-! ## Clauses -/

/-- The number of rules and facts. -/
def Policy.size (p : Policy) : Nat := p.facts.length + p.rules.length

theorem transformClause_size {policy policy' : Policy} {clause line : Str}
    (done : transformClause policy clause = some (line, policy')) :
    policy'.size = policy.size + 1 ∧ policy'.keyDigest = policy.keyDigest := by
  simp only [transformClause, Option.bind_eq_bind, Option.bind_eq_some_iff] at done
  obtain ⟨retVal, -, done⟩ := done
  split at done
  · simp only [Option.bind_eq_some_iff, Option.pure_def, Option.some.injEq, Prod.mk.injEq] at done
    obtain ⟨_, -, r, -, -, rfl⟩ := done
    refine ⟨?_, rfl⟩
    simp only [Policy.size, Policy.addRule, List.length_append, List.length_singleton]
    omega
  · simp only [Option.pure_def, Option.some.injEq, Prod.mk.injEq] at done
    obtain ⟨-, rfl⟩ := done
    refine ⟨?_, rfl⟩
    simp only [Policy.size, Policy.addFact, List.length_append, List.length_singleton]
    omega

theorem transformClauses_size {policy policy' : Policy} {cert cert' : Certificate}
    {clauses : List Str} (done : transformClauses policy cert clauses = some (policy', cert')) :
    policy'.size = policy.size + clauses.length ∧ policy'.keyDigest = policy.keyDigest := by
  induction clauses generalizing policy cert with
  | nil =>
      cases done
      exact ⟨rfl, rfl⟩
  | cons clause rest ih =>
      simp only [transformClauses, Option.bind_eq_bind, Option.bind_eq_some_iff] at done
      obtain ⟨⟨line, between⟩, now, later⟩ := done
      obtain ⟨size, digest⟩ := transformClause_size now
      obtain ⟨sizes, digests⟩ := ih later
      refine ⟨?_, digests.trans digest⟩
      rw [sizes, size, List.length_cons]
      omega

/-! ## Certificates -/

variable {o clib validate}

variable {clock : Nat → Int}

theorem verifyCertificates_none {i : Nat} {certs certs' : List Certificate} {retVal : Bool}
    {policy' : Option Policy}
    (done : verifyCertificates o clib validate clock i none certs =
      some (retVal, policy', certs')) :
    policy' = none ∧ certs' = certs ∧ passingClauses o clib validate clock i certs = [] := by
  induction certs generalizing i retVal policy' certs' with
  | nil =>
      cases done
      exact ⟨rfl, rfl, rfl⟩
  | cons cert rest ih =>
      simp only [verifyCertificates, Option.bind_eq_bind, Option.bind_eq_some_iff] at done
      obtain ⟨⟨first, between, cert'⟩, now, ⟨others, last, rest'⟩, later, whole⟩ := done
      cases pass : passes o clib validate (clock i) cert with
      | true =>
          rw [verifyCertificate_passed pass] at now
          cases now
      | false =>
          rw [verifyCertificate_failed pass] at now
          cases now
          obtain ⟨rfl, rfl, none⟩ := ih later
          cases whole
          refine ⟨rfl, rfl, ?_⟩
          rw [passingClauses, pass, none]
          rfl

theorem verifyCertificates_cons {i : Nat} {policy : Policy} {cert : Certificate}
    {rest certs' : List Certificate} {retVal : Bool} {after : Option Policy}
    (done : verifyCertificates o clib validate clock i (some policy) (cert :: rest) =
      some (retVal, after, certs')) :
    ∃ policy₁ cert₁ others rest', certs' = cert₁ :: rest' ∧
      verifyCertificates o clib validate clock (i + 1) (some policy₁) rest =
        some (others, after, rest') ∧
      ((passes o clib validate (clock i) cert = false ∧ policy₁ = policy ∧ cert₁ = cert) ∨
        (passes o clib validate (clock i) cert = true ∧
          transformClauses (policy.setKeyDigest (getKeyDigest o cert.pubKey))
            (cert.setKeyDigest (getKeyDigest o cert.pubKey)) cert.clauses =
              some (policy₁, cert₁))) := by
  simp only [verifyCertificates, Option.bind_eq_bind, Option.bind_eq_some_iff] at done
  obtain ⟨⟨first, between, cert'⟩, now, ⟨others, last, rest'⟩, later, whole⟩ := done
  cases whole
  cases pass : passes o clib validate (clock i) cert with
  | false =>
      rw [verifyCertificate_failed pass] at now
      cases now
      exact ⟨policy, cert, others, rest', rfl, later, .inl ⟨rfl, rfl, rfl⟩⟩
  | true =>
      rw [verifyCertificate_passed pass, Option.bind_some, Option.map_eq_some_iff] at now
      obtain ⟨⟨policy₁, cert₁⟩, transformed, same⟩ := now
      cases same
      exact ⟨policy₁, cert₁, others, rest', rfl, later, .inr ⟨rfl, transformed⟩⟩

/-- What the loop adds to a policy: the clauses of the certificates that pass, and the digest
    of the last of them. -/
theorem verifyCertificates_size {i : Nat} {policy : Policy} {certs certs' : List Certificate}
    {retVal : Bool} {after : Option Policy}
    (done : verifyCertificates o clib validate clock i (some policy) certs =
      some (retVal, after, certs')) :
    ∃ policy', after = some policy' ∧
      policy'.size = policy.size + (passingClauses o clib validate clock i certs).length ∧
      policy'.keyDigest = passingDigest o clib validate clock i policy.keyDigest certs := by
  induction certs generalizing i policy retVal certs' with
  | nil =>
      cases done
      exact ⟨policy, rfl, rfl, rfl⟩
  | cons cert rest ih =>
      obtain ⟨policy₁, cert₁, others, rest', rfl, later, first⟩ := verifyCertificates_cons done
      obtain ⟨policy', rfl, size, digest⟩ := ih later
      refine ⟨policy', rfl, ?_⟩
      rw [size, digest, passingClauses, passingDigest]
      rcases first with ⟨pass, rfl, rfl⟩ | ⟨pass, transformed⟩
      · rw [pass]
        exact ⟨rfl, rfl⟩
      · obtain ⟨sizeNow, digestNow⟩ := transformClauses_size transformed
        rw [sizeNow, digestNow, pass, if_pos rfl, if_pos rfl, List.length_append, ← Nat.add_assoc]
        exact ⟨rfl, rfl⟩

theorem verifyCertificates_spared {i : Nat} {policy : Policy} {certs certs' : List Certificate}
    {retVal : Bool} {after : Option Policy}
    (done : verifyCertificates o clib validate clock i (some policy) certs =
      some (retVal, after, certs'))
    (none : passingClauses o clib validate clock i certs = []) :
    after = some (policy.setKeyDigest
        (passingDigest o clib validate clock i policy.keyDigest certs)) ∧
      certs'.map Certificate.transformedCls = certs.map Certificate.transformedCls := by
  induction certs generalizing i policy retVal certs' with
  | nil =>
      cases done
      exact ⟨rfl, rfl⟩
  | cons cert rest ih =>
      rw [passingClauses, List.append_eq_nil_iff] at none
      obtain ⟨policy₁, cert₁, others, rest', rfl, later, first⟩ := verifyCertificates_cons done
      obtain ⟨rfl, lines⟩ := ih later none.2
      rw [List.map_cons, List.map_cons, lines, passingDigest]
      rcases first with ⟨pass, rfl, rfl⟩ | ⟨pass, transformed⟩
      · rw [pass]
        exact ⟨rfl, rfl⟩
      · rw [pass, if_pos rfl] at none
        rw [none.1] at transformed
        cases transformed
        rw [pass, if_pos rfl]
        exact ⟨rfl, rfl⟩

end Certificates

/-! ## The credential -/

theorem binderText_export (policy : Policy) (c : Credential) :
    binderText policy c =
      (policy.policyStr ++ "\n".toList ++ "/* Begin Transformed Rules */".toList ++
        "\n".toList) ++ exportText c := by
  rw [binderText_eq, programText, exportText]

theorem binderText_ne_nil (policy : Policy) (c : Credential) : binderText policy c ≠ [] := by
  rw [binderText_export]
  simp

theorem exportText_of_lines {c c' : Credential}
    (lines : c'.certificates.map Certificate.transformedCls =
      c.certificates.map Certificate.transformedCls) : exportText c' = exportText c := by
  have flat : ∀ c : Credential, exportText c =
      ((c.certificates.map Certificate.transformedCls).flatten).flatMap fun line =>
        line ++ "\n".toList := fun _ => rfl
  rw [flat, flat, lines]

theorem programOf_some {ss : SecurityService} {c : Credential} {policy : Policy}
    (hasCred : ss.credPtr = some c) (hasPolicy : ss.policy = some policy) :
    programOf ss = binderText policy c := by
  rw [programOf, hasCred, hasPolicy]

theorem programOf_no_policy {ss : SecurityService} (noPolicy : ss.policy = none) :
    programOf ss = [] := by
  rw [programOf, noPolicy]
  cases ss.credPtr <;> rfl

theorem programOf_no_credential {ss : SecurityService} (noCred : ss.credPtr = none) :
    programOf ss = [] := by
  rw [programOf, noCred]

theorem writeBinderFile_saves (ss : SecurityService) :
    (writeBinderFile ss).Only fun e => ∀ text, e.1 = .saveBinder text → text = programOf ss := by
  unfold writeBinderFile
  split
  · next c policy hasCred hasPolicy =>
      rw [programOf_some hasCred hasPolicy]
      exact fun _ => ⟨fun text same => (Call.saveBinder.inj same).symm, trivial⟩
  · next noPolicy =>
      rw [programOf_no_policy noPolicy]
      refine fun isOpen => ⟨fun text same => (Call.saveBinder.inj same).symm, ?_⟩
      cases isOpen with
      | false => trivial
      | true => exact fun r => r.elim
  · next noCred =>
      rw [programOf_no_credential noCred]
      exact fun _ => ⟨fun text same => (Call.saveBinder.inj same).symm, trivial⟩

/-- A rejected credential leaves policy and program text alone exactly if no certificate of it
    that passes has anything to add. -/
theorem rejected_untouched_iff (o : OpenSSL) (clib : CLib) (validate : Bool) (clock : Nat → Int)
    {before after : SecurityService} {c : Credential}
    (rejected : verifyCredential o clib validate clock before (some c) = some (false, after)) :
    Untouched before after ↔ Spared o clib validate clock before c := by
  simp only [verifyCredential, Option.bind_eq_bind, Option.bind_eq_some_iff] at rejected
  obtain ⟨⟨retVal, policy', certs'⟩, done, result⟩ := rejected
  cases result
  cases hasPolicy : before.policy with
  | none =>
      rw [hasPolicy] at done
      obtain ⟨rfl, rfl, noClause⟩ := verifyCertificates_none done
      constructor
      · intro _
        refine ⟨noClause, ?_, fun present => absurd hasPolicy present⟩
        rw [hasPolicy]
        exact fun policy absurd => by cases absurd
      · intro _
        refine ⟨hasPolicy.symm, ?_⟩
        rw [programOf_no_policy rfl, programOf_no_policy hasPolicy]
  | some policy =>
      rw [hasPolicy] at done
      have lines : passingClauses o clib validate clock 0 c.certificates = [] →
          exportText { c.setKeyDigest (getKeyDigest o c.pubKey) with certificates := certs' } =
            exportText c :=
        fun noClause => exportText_of_lines (verifyCertificates_spared done noClause).2
      constructor
      · rintro ⟨samePolicy, sameProgram⟩
        obtain ⟨policy'', rfl, size, digest⟩ := verifyCertificates_size done
        rw [hasPolicy] at samePolicy
        cases samePolicy
        have noClause : passingClauses o clib validate clock 0 c.certificates = [] :=
          List.eq_nil_of_length_eq_zero (by omega)
        refine ⟨noClause, ?_, fun _ => ?_⟩
        · intro p same
          rw [hasPolicy] at same
          cases same
          exact digest.symm
        · rw [programOf_some rfl rfl] at sameProgram
          cases hasCred : before.credPtr with
          | none =>
              rw [programOf_no_credential hasCred] at sameProgram
              exact absurd sameProgram (binderText_ne_nil _ _)
          | some old =>
              rw [programOf_some hasCred hasPolicy, binderText_export, binderText_export,
                List.append_cancel_left_eq, lines noClause] at sameProgram
              exact ⟨old, rfl, sameProgram.symm⟩
      · rintro ⟨noClause, digest, program⟩
        obtain ⟨rfl, -⟩ := verifyCertificates_spared done noClause
        have samePolicy : policy.setKeyDigest
            (passingDigest o clib validate clock 0 policy.keyDigest c.certificates) = policy := by
          rw [digest policy hasPolicy]
          rfl
        obtain ⟨old, hasCred, sameText⟩ := program (by rw [hasPolicy]; exact Option.some_ne_none _)
        refine ⟨?_, ?_⟩
        · rw [hasPolicy]
          exact congrArg some samePolicy
        · rw [programOf_some hasCred hasPolicy, programOf_some rfl rfl, samePolicy,
            binderText_export, binderText_export, lines noClause, sameText]

/-- A credential of one certificate with one fact. -/
def oneFact : Credential :=
  { pubKey := "a".toList, keyDigest := []
    certificates := [{ Certificate.empty with
      clauses := ["p(a).".toList], stopTimeSec := 1, signature := "c".toList,
      pubKey := "b".toList, certStr := "p(a).".toList }] }

/-- A service that has verified `oneFact` before. -/
def afterOneFact : SecurityService :=
  { policyStr := [], policy := some ⟨[], [], [], []⟩, credPtr := some oneFact }

/-- The credential of `oneFact` without a signature. -/
def unsignedFact : Credential :=
  { oneFact with certificates := oneFact.certificates.map fun cert => { cert with signature := [] } }

theorem rejected_untouched_iff_unsigned :
    ∃ after, verifyCredential .plainText .epoch true (fun _ => 0) afterOneFact
        (some unsignedFact) = some (false, after) ∧
      (Untouched afterOneFact after ↔
        Spared .plainText .epoch true (fun _ => 0) afterOneFact unsignedFact) :=
  ⟨_, rfl, rejected_untouched_iff .plainText .epoch true (fun _ => 0) rfl⟩

/-- The certificate of `oneFact`, and after it the same one without a signature. -/
def halfSigned : Credential :=
  { oneFact with certificates := oneFact.certificates ++ unsignedFact.certificates }

theorem rejected_fact_added :
    ∃ after, verifyCredential .plainText .epoch true (fun _ => 0) afterOneFact
        (some halfSigned) = some (false, after) ∧ ¬ Untouched afterOneFact after := by
  refine ⟨_, rfl, fun untouched => ?_⟩
  have facts := congrArg (Option.map Policy.facts) untouched.policy
  exact absurd facts (by decide)

end RepositoryManager
