import Mathlib.Data.List.Forall2
import RepositoryManager.WalkTermination

/-! # Words and markers

The walker knows the structure of a credential by the texts of its tokens. Two of the
texts it looks for, `CERT` and `START_TIME`, are words of class `TEXT` too. A credential
that has them where the walker looks for its marker is not recovered, whatever else it
holds; all others of its shape are.
-/

namespace RepositoryManager.Grammar

/-! ## Shapes -/

def Predicate.blank (p : Predicate) : Predicate :=
  { name := .blank, arg := .blank, args := p.args.map fun _ => .blank }

def Literal.blank : Literal → Literal
  | .predicate p => .predicate p.blank
  | .saysThat _ p => .saysThat .blank p.blank

def Clause.blank : Clause → Clause
  | .fact head => .fact head.blank
  | .rule head first more => .rule head.blank first.blank (more.map Literal.blank)

def Certificate.blank (c : Certificate) : Certificate :=
  { c with
    clauses := c.clauses.map Clause.blank
    key := c.key.map fun _ => .blank
    signature := c.signature.map fun _ => .blank
    someClause := by simpa using c.someClause }

/-- A credential with all its `TEXT` tokens blanked out. -/
def Credential.blank (c : Credential) : Credential :=
  { key := c.key.map fun _ => .blank, certificates := c.certificates.map Certificate.blank }

/-- The credentials differ only in the texts of their `TEXT` tokens. -/
def SameShape (c c' : Credential) : Prop := c.blank = c'.blank

/-- How many clauses each certificate has. -/
def Credential.clauseCounts (c : Credential) : List Nat :=
  c.certificates.map fun cert => cert.clauses.length

theorem SameShape.clauseCounts {c c' : Credential} (same : SameShape c c') :
    c.clauseCounts = c'.clauseCounts := by
  have counts : ∀ c : Credential, c.blank.clauseCounts = c.clauseCounts := by
    intro c
    simp [Credential.clauseCounts, Credential.blank, Certificate.blank, Function.comp_def]
  rw [← counts c, ← counts c', same]

end RepositoryManager.Grammar

namespace RepositoryManager.AstWalker

open ByteString Grammar Terminated

/-- The fields of a certificate are the texts of the tree, each at its place. -/
structure CertificateInPlace (c : Grammar.Certificate) (r : RepositoryManager.Certificate) :
    Prop where
  clauses : r.clauses = c.clauses.map Clause.text
  startTime : r.startTime = c.start.text
  stopTime : r.stopTime = c.stop.text
  pubKey : r.pubKey = pem pkHeaderS c.key pkEndS
  signature : r.signature = pem sigS c.signature endSigS

/-- The credential has the shape of the tree, and each text at its place. -/
structure InPlace (c : Grammar.Credential) (r : RepositoryManager.Credential) : Prop where
  pubKey : r.pubKey = pem pkHeaderS c.key pkEndS
  certificates : List.Forall₂ CertificateInPlace c.certificates r.certificates

/-- With enough fuel the walk over the tree of a credential of the grammar gives `r`. -/
def Extracts (mktime : Tm → Int) (now : Tm) (c : Grammar.Credential)
    (r : RepositoryManager.Credential) : Prop :=
  ∃ n, ∀ fuel, n ≤ fuel →
    getCredential { text := credentialS, children := c.children } mktime now fuel = some (some r)

/-- The walk extracts one shape from both credentials, with each text at its place. -/
def SameExtraction (mktime : Tm → Int) (now : Tm) (c c' : Grammar.Credential) : Prop :=
  ∃ r r', Extracts mktime now c r ∧ Extracts mktime now c' r' ∧
    r.certificates.map (fun cert => cert.clauses.length) =
      r'.certificates.map (fun cert => cert.clauses.length) ∧
    InPlace c r ∧ InPlace c' r'

/-- There is a certificate, and no marker stands where the walker would take it for one. -/
structure Unmarked (c : Grammar.Credential) : Prop where
  someCertificate : c.certificates ≠ []
  noCert : ∀ line ∈ c.key, line.chars ≠ certS
  noStartTime : ∀ cert ∈ c.certificates, ∀ cl ∈ cert.clauses, cl.tokens.head? ≠ some startTimeS

/-! ## What a walk only adds to -/

variable {t : Tree} {w w' : Walker} {rest : List Str}

theorem appendUntilCert_adds {fuel : Nat} {cred cred' : RepositoryManager.Credential}
    (returned : appendUntilCert t fuel cred w = some (cred', w')) :
    cred'.certificates = cred.certificates ∧ cred.pubKey <+: cred'.pubKey := by
  induction fuel generalizing cred w with
  | zero => cases returned
  | succ fuel ih =>
      simp only [appendUntilCert] at returned
      split at returned
      · obtain ⟨same, longer⟩ := ih returned
        exact ⟨same, (List.prefix_append _ _).trans longer⟩
      · cases returned
        exact ⟨rfl, List.prefix_refl _⟩

theorem addClauses_startTime {fuel : Nat} {cert cert' : RepositoryManager.Certificate}
    (returned : addClauses t fuel cert w = some (cert', w')) :
    cert'.startTime = cert.startTime := by
  induction fuel generalizing cert w with
  | zero => cases returned
  | succ fuel ih =>
      simp only [addClauses] at returned
      split at returned
      · split at returned
        · exact (ih returned).trans rfl
        · cases returned
      · cases returned
        rfl

theorem makeCertificateStep_adds {fuel : Nat} {cert cert' : RepositoryManager.Certificate}
    (returned : makeCertificateStep t fuel cert w = some (cert', w')) :
    cert.startTime <+: cert'.startTime := by
  unfold makeCertificateStep at returned
  split at returned
  · exact addClauses_startTime returned ▸ List.prefix_refl _
  split at returned
  · obtain ⟨⟨text, w₁⟩, -, same⟩ := Option.bind_eq_some_iff.mp returned
    cases same
    exact List.prefix_append _ _
  split at returned
  · obtain ⟨_, -, same⟩ := Option.bind_eq_some_iff.mp returned
    cases same
    exact List.prefix_refl _
  split at returned
  · obtain ⟨_, -, same⟩ := Option.bind_eq_some_iff.mp returned
    cases same
    exact List.prefix_refl _
  split at returned
  · obtain ⟨_, -, same⟩ := Option.bind_eq_some_iff.mp returned
    cases same
    exact List.prefix_refl _
  · cases returned
    exact List.prefix_refl _

theorem makeCertificate_adds {fuel : Nat} {cert cert' : RepositoryManager.Certificate}
    (returned : makeCertificate t fuel cert w = some (cert', w')) :
    cert.startTime <+: cert'.startTime := by
  induction fuel generalizing cert w with
  | zero => cases returned
  | succ fuel ih =>
      rw [makeCertificate] at returned
      split at returned
      · dsimp only at returned
        split at returned
        · split at returned
          · rename_i step
            exact (makeCertificateStep_adds step).trans (ih returned)
          · cases returned
        · cases returned
          exact List.prefix_refl _
      · cases returned
        exact List.prefix_refl _

theorem makeCredential_adds {fuel : Nat} {cred cred' : RepositoryManager.Credential}
    (returned : makeCredential t fuel cred w = some (cred', w')) :
    cred.certificates <+: cred'.certificates ∧
      ∃ more, cred'.pubKey = cred.pubKey ++ more ∧ (more = [] ∨ more.head? = some '-') := by
  induction fuel generalizing cred w with
  | zero => cases returned
  | succ fuel ih =>
      rw [makeCredential] at returned
      split at returned
      · dsimp only at returned
        split at returned
        · rename_i cred₁ w₁ step
          obtain ⟨certificates, more, key, begins⟩ := ih returned
          unfold makeCredentialStep at step
          split at step
          · rename_i isHeader
            obtain ⟨same, longer⟩ := appendUntilCert_adds step
            obtain ⟨lines, longer⟩ := longer
            rw [same] at certificates
            refine ⟨certificates, pkHeaderS ++ (lines ++ more), ?_, .inr rfl⟩
            rw [key, ← longer]
            have label : (nextChildStr t w).sstr = pkHeaderS := isHeader
            simp only [RepositoryManager.Credential.appendToPubKey, label, List.append_assoc]
          split at step
          · obtain ⟨⟨cert, w₂⟩, -, same⟩ := Option.bind_eq_some_iff.mp step
            cases same
            exact ⟨(List.prefix_append _ _).trans certificates, more, key, begins⟩
          · cases step
            exact ⟨certificates, more, key, begins⟩
        · cases returned
      · cases returned
        exact ⟨List.prefix_refl _, [], by simp, .inl rfl⟩

/-! ## A clause that begins with a marker -/

theorem literal_begins (l : Literal) : ∃ name more, l.tokens = name :: ['('] :: more := by
  cases l with
  | predicate p => exact ⟨_, _, rfl⟩
  | saysThat speaker p => exact ⟨_, _, rfl⟩

theorem clause_begins (cl : Clause) : ∃ name more, cl.tokens = name :: ['('] :: more := by
  cases cl with
  | fact head =>
      obtain ⟨name, more, tokens⟩ := literal_begins head
      exact ⟨name, more ++ [['.']], by simp [Clause.tokens, tokens]⟩
  | rule head first others =>
      obtain ⟨name, more, tokens⟩ := literal_begins head
      exact ⟨name, _, by simp only [Clause.tokens, tokens, List.cons_append]; rfl⟩

/-- Read behind its first token, a marked clause looks like a start time. -/
theorem marked_tokens {cl : Clause} (marked : cl.tokens.head? = some startTimeS) :
    ∃ tokens, cl.tokens = startTimeS :: (['('] :: tokens ++ [['.']]) ∧
      ∀ s ∈ ['('] :: tokens, s ≠ ['.'] := by
  obtain ⟨name, more, begins⟩ := clause_begins cl
  obtain ⟨tokens, ends, noStop, -⟩ := clause_tokens cl
  rw [begins, List.head?_cons, Option.some_inj] at marked
  subst marked
  have same := begins.symm.trans ends
  cases tokens with
  | nil => simp at same
  | cons first tokens =>
      cases tokens with
      | nil =>
          simp only [List.cons_append, List.nil_append, List.cons.injEq] at same
          exact absurd same.2.1 (by decide)
      | cons second tokens =>
          simp only [List.cons_append, List.cons.injEq] at same
          obtain ⟨rfl, rfl, -⟩ := same
          exact ⟨tokens, ends, fun s member => noStop s (List.mem_cons_of_mem _ member)⟩

/-- The certificate has a clause that begins with the token `START_TIME`. -/
def Marked (c : Grammar.Certificate) : Prop :=
  ∃ cl ∈ c.clauses, cl.tokens.head? = some startTimeS

theorem not_marked {c : Grammar.Certificate} (clean : ¬ Marked c) :
    ∀ cl ∈ c.clauses, cl.tokens.head? ≠ some startTimeS :=
  fun cl member marked => clean ⟨cl, member, marked⟩

theorem marked_children {c : Grammar.Certificate} (marked : Marked c) (rest : List Str) :
    ∃ (words : List (List Str)) (tokens rest' : List Str), (∀ word ∈ words, ClauseWord word) ∧
      (∀ s ∈ ['('] :: tokens, s ≠ ['.']) ∧
      (c.children ++ rest).tail = clauseS :: (words.flatten ++ startTimeS ::
        (['('] :: tokens ++ ['.'] :: rest')) := by
  obtain ⟨cl, member, isMarked⟩ := marked
  obtain ⟨first, found⟩ : ∃ cl, c.clauses.find? (·.tokens.head? = some startTimeS) = some cl :=
    Option.isSome_iff_exists.mp (List.find?_isSome.mpr ⟨cl, member, decide_eq_true isMarked⟩)
  obtain ⟨isFirst, before, after, clauses, unmarked⟩ := List.find?_eq_some_iff_append.mp found
  obtain ⟨tokens, shape, noStop⟩ := marked_tokens (of_decide_eq_true isFirst)
  refine ⟨before.map Clause.tokens, tokens, after.flatMap Clause.tokens ++
    (validityChildren c.start c.stop ++ (publicKeyChildren c.key ++
      (signatureChildren c.signature ++ endCertS :: rest))), ?_, noStop, ?_⟩
  · intro word inWords
    obtain ⟨cl, isBefore, rfl⟩ := List.mem_map.mp inWords
    exact Clause.clauseWord fun isMarked => by simpa [isMarked] using unmarked cl isBefore
  · simp [Grammar.Certificate.children, clauses, shape, List.flatMap]

/-- The start time read for a marked certificate begins in the middle of the clause. -/
theorem makeCertificate_marked {c : Grammar.Certificate} (marked : Marked c) {fuel : Nat}
    {cert : RepositoryManager.Certificate} (enough : (c.children ++ rest).length ≤ fuel)
    (here : ahead t w = (c.children ++ rest).tail)
    (returned : makeCertificate t fuel .empty w = some (cert, w')) :
    cert.startTime ≠ c.start.text := by
  obtain ⟨words, tokens, rest', each, noStop, shape⟩ := marked_children marked rest
  rw [shape] at here
  have size := congrArg List.length shape
  simp only [List.length_tail, List.length_append, List.length_cons] at size enough
  obtain ⟨fuel, rfl⟩ : ∃ f, fuel = f + 2 := ⟨fuel - 2, by omega⟩
  obtain ⟨w₁, pass₁, passes₁⟩ := pass_clauses each (fuel + 1) .empty w (by omega) here
  obtain ⟨w₂, pass₂, -⟩ := pass_startTime noStop fuel
    { Certificate.empty with clauses := [] ++ words.map List.flatten } w₁
    (by simp only [List.length_cons]; omega) passes₁.ahead
  obtain ⟨more, longer⟩ := makeCertificate_adds ((pass₁.trans pass₂).symm.trans returned)
  intro same
  rw [same] at longer
  have begins := congrArg List.head? longer
  simp [Certificate.appendToStartTime, Certificate.empty, TimeTuple.text, TimeTuple.tokens]
    at begins

theorem makeCredential_marked {certs : List Grammar.Certificate} (marked : ∃ c ∈ certs, Marked c)
    {fuel : Nat} {cred cred' : RepositoryManager.Credential} (goesOn : w.label ≠ endS)
    (enough : (certs.flatMap Grammar.Certificate.children ++ rest).length + 2 ≤ fuel)
    (here : ahead t w = certs.flatMap Grammar.Certificate.children ++ rest)
    (returned : makeCredential t fuel cred w = some (cred', w')) :
    ∃ extracted, cred'.certificates = cred.certificates ++ extracted ∧
      ¬ List.Forall₂ (fun (c : Grammar.Certificate) r => r.startTime = c.start.text) certs
        extracted := by
  induction certs generalizing fuel cred w with
  | nil =>
      obtain ⟨c, member, -⟩ := marked
      cases member
  | cons c certs ih =>
      simp only [List.flatMap_cons, List.append_assoc] at enough here
      have long : 2 ≤ c.children.length := by
        simp [Grammar.Certificate.children]
      obtain ⟨fuel, rfl⟩ : ∃ f, fuel = f + 2 := ⟨fuel - 2, by omega⟩
      by_cases first : Marked c
      · have shape : ahead t w = certS ::
            (c.children ++ (certs.flatMap Grammar.Certificate.children ++ rest)).tail := by
          simpa only [Grammar.Certificate.children, List.cons_append, List.tail_cons] using here
        have label := nextChildStr_ahead shape
        rw [makeCredential, if_pos ⟨idx_lt_of_ahead shape, goesOn⟩] at returned
        simp only [label, makeCredentialStep, show certS ≠ pkHeaderS by decide, if_true, if_false]
          at returned
        cases made : makeCertificate t (fuel + 1) .empty
            { w with idx := w.idx + 1, sstr := certS, label := certS } with
        | none => simp [made] at returned
        | some result =>
            obtain ⟨cert, w₁⟩ := result
            simp only [made, Option.bind_eq_bind, Option.bind_some] at returned
            obtain ⟨⟨more, added⟩, -⟩ := makeCredential_adds returned
            refine ⟨cert :: more, by simp [← added, Credential.addCertificate], fun all => ?_⟩
            cases all with
            | cons same _ =>
                exact makeCertificate_marked first (by omega) (ahead_succ shape rfl) made same
      · obtain ⟨w₁, pass, ahead₁, label₁, -⟩ := makeCredential_certificate c
          (not_marked first) fuel cred w goesOn (by omega) here
        have later : ∃ c ∈ certs, Marked c := by
          obtain ⟨c', member, isMarked⟩ := marked
          rcases List.mem_cons.mp member with rfl | inRest
          · exact absurd isMarked first
          · exact ⟨c', inRest, isMarked⟩
        obtain ⟨extracted, added, differ⟩ := ih later label₁
          (by simp only [List.length_append] at enough ⊢; omega) ahead₁ (pass.symm.trans returned)
        refine ⟨walked c :: extracted, by simp [added, Credential.addCertificate], fun all => ?_⟩
        cases all with
        | cons _ rest => exact differ rest

/-! ## Credentials -/

variable {mktime : Tm → Int} {now : Tm}

theorem setCertificateStr_startTime (cert : RepositoryManager.Certificate) :
    (cert.setCertificateStr mktime now).startTime = cert.startTime := by
  unfold Certificate.setCertificateStr
  dsimp only
  split <;> rfl

/-- A key line `CERT` is taken for the first certificate: the rest of the key is lost. -/
theorem makeCredential_certLine {c : Grammar.Credential}
    (marked : ∃ line ∈ c.key, line.chars = certS) (children : t.children = c.children) {fuel : Nat}
    (enough : c.children.length < fuel) {cred : RepositoryManager.Credential}
    (returned : makeCredential t fuel .empty (start t) = some (cred, w')) :
    cred.pubKey ≠ pem pkHeaderS c.key pkEndS := by
  have member : certS ∈ c.key.map Text.chars := by
    obtain ⟨line, inKey, isCert⟩ := marked
    exact isCert ▸ List.mem_map_of_mem inKey
  obtain ⟨before, after, lines, absent⟩ := List.eq_append_cons_of_mem member
  have noCert : ∀ s ∈ before, s ≠ certS := fun s inBefore same => absent (same ▸ inBefore)
  have here := start_ahead c children
  simp only [lines, List.append_assoc, List.cons_append] at here
  have size := congrArg List.length (children.symm.trans here)
  simp only [List.length_cons, List.length_append] at size
  obtain ⟨fuel, rfl⟩ : ∃ f, fuel = f + 1 := ⟨fuel - 1, by omega⟩
  obtain ⟨w₁, pass, -, -⟩ := makeCredential_key noCert fuel (by omega) here
  obtain ⟨-, more, key, begins⟩ := makeCredential_adds (pass.symm.trans returned)
  intro same
  rw [same, pem_eq, lines] at key
  simp only [List.flatMap_append, List.flatMap_cons, List.append_assoc,
    List.append_cancel_left_eq] at key
  rcases begins with rfl | dash
  · simp at key
  · rw [← key] at dash
    simp at dash

theorem makeCredential_someCertificate {c : Grammar.Credential}
    (noCert : ∀ line ∈ c.key, line.chars ≠ certS) (children : t.children = c.children) {fuel : Nat}
    {cred : RepositoryManager.Credential}
    (returned : makeCredential t fuel .empty (start t) = some (cred, w')) :
    c.certificates ≠ [] := by
  intro none
  have here := start_ahead c children
  rw [none] at here
  obtain ⟨fuel, rfl⟩ : ∃ f, fuel = f + 1 := by
    cases fuel with
    | zero => cases returned
    | succ fuel => exact ⟨fuel, rfl⟩
  rw [makeCredential, if_pos ⟨idx_lt_of_ahead here, show ([] : Str) ≠ endS by decide⟩] at returned
  simp only [nextChildStr_ahead here, makeCredentialStep, if_true] at returned
  split at returned
  · rename_i read
    obtain ⟨lines, rest, -, found, -⟩ := appendUntilCert_some read
    rw [ahead_succ (w := start t) here rfl] at found
    have member : certS ∈ (c.key.map Text.chars ++ [pkEndS]) ++ [endS] := by
      simp only [List.append_assoc, List.singleton_append]
      exact found ▸ List.mem_append_right _ List.mem_cons_self
    rcases List.mem_append.mp member with inKey | atEnd
    · exact keyLines_ne_certS noCert _ inKey rfl
    · exact absurd (List.mem_singleton.mp atEnd) (by decide)
  · cases returned

/-- Behind a key without `CERT` the certificates are read, but not a marked one. -/
theorem makeCredential_startTimes {c : Grammar.Credential}
    (noCert : ∀ line ∈ c.key, line.chars ≠ certS) (marked : ∃ cert ∈ c.certificates, Marked cert)
    (children : t.children = c.children) {fuel : Nat} (enough : c.children.length < fuel)
    {cred : RepositoryManager.Credential}
    (returned : makeCredential t fuel .empty (start t) = some (cred, w')) :
    ¬ List.Forall₂ (fun (c : Grammar.Certificate) r => r.startTime = c.start.text) c.certificates
      cred.certificates := by
  have someCertificate : c.certificates ≠ [] := by
    rintro none
    simp [none] at marked
  obtain ⟨rest, body, here⟩ := start_key someCertificate children
  have size := congrArg List.length (children.symm.trans here)
  rw [← body] at size
  simp only [List.length_cons, List.length_append, List.length_nil] at size
  obtain ⟨fuel, rfl⟩ : ∃ f, fuel = f + 1 := ⟨fuel - 1, by omega⟩
  obtain ⟨w₁, pass, goesOn, ahead₁⟩ := makeCredential_key (keyLines_ne_certS noCert) fuel
    (by simp only [List.length_append, List.length_cons, List.length_nil]; omega) here
  obtain ⟨extracted, added, differ⟩ := makeCredential_marked marked goesOn
    (by simp only [List.length_append, List.length_singleton]; omega) (ahead₁.trans body.symm)
    (pass.symm.trans returned)
  rw [added]
  exact differ

/-! ## What is extracted from two credentials -/

theorem recovered_inPlace (c : Grammar.Credential) : InPlace c (recovered mktime now c) := by
  refine ⟨rfl, ?_⟩
  rw [recovered, List.forall₂_map_right_iff, List.forall₂_same]
  exact fun cert _ => ⟨rfl, rfl, rfl, rfl, rfl⟩

theorem extracts_of_unmarked {c : Grammar.Credential} (unmarked : Unmarked c) :
    Extracts mktime now c (recovered mktime now c) :=
  ⟨c.children.length + 1, fun fuel enough => getCredential_recovers mktime now c
    unmarked.someCertificate unmarked.noCert unmarked.noStartTime fuel enough⟩

theorem unmarked_of_inPlace {c : Grammar.Credential} {r : RepositoryManager.Credential}
    (extracts : Extracts mktime now c r) (inPlace : InPlace c r) : Unmarked c := by
  obtain ⟨n, returned⟩ := extracts
  have returned := returned (n + c.children.length + 1) (by omega)
  generalize tree : ({ text := credentialS, children := c.children } : Tree) = t at returned
  have children : t.children = c.children := by rw [← tree]
  have root : t.text = credentialS := by rw [← tree]
  obtain ⟨cred, w', made, rfl⟩ : ∃ cred w',
      makeCredential t (n + c.children.length + 1) .empty (start t) = some (cred, w') ∧
        r = cred.finalize mktime now := by
    cases made : makeCredential t (n + c.children.length + 1) .empty (start t) with
    | none =>
        unfold start at made
        simp only [getCredential, if_pos root, made] at returned
        cases returned
    | some result =>
        rw [getCredential_made root made] at returned
        exact ⟨result.1, result.2, rfl, by cases returned; rfl⟩
  have noCert : ∀ line ∈ c.key, line.chars ≠ certS := by
    intro line inKey isCert
    exact makeCredential_certLine ⟨line, inKey, isCert⟩ children (by omega) made inPlace.pubKey
  refine ⟨makeCredential_someCertificate noCert children made, noCert, ?_⟩
  intro cert member
  refine not_marked fun marked => ?_
  refine makeCredential_startTimes noCert ⟨cert, member, marked⟩ children (by omega) made ?_
  refine (List.forall₂_map_right_iff.mp inPlace.certificates).imp fun _ _ same => ?_
  exact (setCertificateStr_startTime _).symm.trans same.startTime

/-- Two credentials of one shape are extracted in one shape, each text at its place, exactly
    when neither has a marker among its texts where the walker looks for one. -/
theorem sameExtraction_iff (mktime : Tm → Int) (now : Tm) {c c' : Grammar.Credential}
    (same : SameShape c c') : SameExtraction mktime now c c' ↔ Unmarked c ∧ Unmarked c' := by
  constructor
  · rintro ⟨r, r', extracts, extracts', -, inPlace, inPlace'⟩
    exact ⟨unmarked_of_inPlace extracts inPlace, unmarked_of_inPlace extracts' inPlace'⟩
  · rintro ⟨unmarked, unmarked'⟩
    refine ⟨_, _, extracts_of_unmarked unmarked, extracts_of_unmarked unmarked', ?_,
      recovered_inPlace c, recovered_inPlace c'⟩
    simpa [recovered, recoveredCertificate, walked, Credential.clauseCounts, Function.comp_def]
      using same.clauseCounts

/-- Bob's credential with `word(word).` as the only clause of each certificate. -/
def factNamed (word : Text) : Grammar.Credential :=
  { bobCredential with
    certificates := bobCredential.certificates.map fun cert =>
      { cert with
        clauses := [.fact (.predicate { name := word, arg := word, args := [] })]
        someClause := List.cons_ne_nil _ _ } }

theorem factNamed_sameShape (word word' : Text) :
    SameShape (factNamed word) (factNamed word') := rfl

theorem sameExtraction_iff_cert :
    SameExtraction CLib.epoch.mktime (CLib.epoch.gmtime 0) (factNamed (.of "member"))
      (factNamed (.of "CERT")) := by
  refine (sameExtraction_iff _ _ (factNamed_sameShape _ _)).mpr ⟨⟨?_, ?_, ?_⟩, ⟨?_, ?_, ?_⟩⟩
  · simp [factNamed, bobCredential]
  · decide
  · decide
  · simp [factNamed, bobCredential]
  · decide
  · decide

/-- A predicate named `START_TIME` ends the clauses of its certificate. -/
theorem startTime_is_marker :
    SameShape (factNamed (.of "member")) (factNamed (.of "START_TIME")) ∧
      ¬ SameExtraction CLib.epoch.mktime (CLib.epoch.gmtime 0) (factNamed (.of "member"))
        (factNamed (.of "START_TIME")) := by
  refine ⟨factNamed_sameShape _ _, ?_⟩
  rintro ⟨-, r, -, extracts, -, -, inPlace⟩
  have unmarked := (unmarked_of_inPlace extracts inPlace).noStartTime
  revert unmarked
  decide

end RepositoryManager.AstWalker
