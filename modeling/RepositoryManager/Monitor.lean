import RepositoryManager.Authorization
import RepositoryManager.Exchanges
import RepositoryManager.Queries
import RepositoryManager.UniqueReading

/-! # The decision is what the logic says

A session from the bytes of its client to the reply. If XSB answers the query truthfully
over the program file of the session, then `granted` is written exactly when the policy
and the contexts of the keys in the credential let the service believe that the client
may do what it asks for.
-/

namespace RepositoryManager

open ByteString Grammar Contexts Interaction Interaction.Prog ProcessPool

/-! ## Credentials from the walker -/

namespace AstWalker

variable {t : Tree}

theorem addClauses_transformed {fuel : Nat} {cert cert' : Certificate} {w w' : Walker}
    (made : addClauses t fuel cert w = some (cert', w')) :
    cert'.transformedCls = cert.transformedCls := by
  induction fuel generalizing cert w with
  | zero => cases made
  | succ fuel ih =>
      simp only [addClauses] at made
      split at made
      · split at made
        · have kept := ih made
          exact kept
        · cases made
      · cases made
        rfl

theorem makeCertificateStep_transformed {fuel : Nat} {cert cert' : Certificate} {w w' : Walker}
    (made : makeCertificateStep t fuel cert w = some (cert', w')) :
    cert'.transformedCls = cert.transformedCls := by
  unfold makeCertificateStep at made
  split at made
  · exact addClauses_transformed made
  split at made
  · obtain ⟨_, -, same⟩ := Option.bind_eq_some_iff.mp made
    cases same
    rfl
  split at made
  · obtain ⟨_, -, same⟩ := Option.bind_eq_some_iff.mp made
    cases same
    rfl
  split at made
  · obtain ⟨_, -, same⟩ := Option.bind_eq_some_iff.mp made
    cases same
    rfl
  split at made
  · obtain ⟨_, -, same⟩ := Option.bind_eq_some_iff.mp made
    cases same
    rfl
  · cases made
    rfl

theorem makeCertificate_transformed {fuel : Nat} {cert cert' : Certificate} {w w' : Walker}
    (made : makeCertificate t fuel cert w = some (cert', w')) :
    cert'.transformedCls = cert.transformedCls := by
  induction fuel generalizing cert w with
  | zero => cases made
  | succ fuel ih =>
      simp only [makeCertificate] at made
      split at made
      · split at made
        · split at made
          · rename_i step
            exact (ih made).trans (makeCertificateStep_transformed step)
          · cases made
        · cases made
          rfl
      · cases made
        rfl

theorem appendUntilCert_fresh {fuel : Nat} {cred cred' : Credential} {w w' : Walker}
    (made : appendUntilCert t fuel cred w = some (cred', w')) (fresh : cred.Fresh) : cred'.Fresh := by
  induction fuel generalizing cred w with
  | zero => cases made
  | succ fuel ih =>
      simp only [appendUntilCert] at made
      split at made
      · exact ih made fun cert member => fresh cert member
      · cases made
        exact fresh

theorem makeCredentialStep_fresh {fuel : Nat} {cred cred' : Credential} {w w' : Walker}
    (made : makeCredentialStep t fuel cred w = some (cred', w')) (fresh : cred.Fresh) :
    cred'.Fresh := by
  unfold makeCredentialStep at made
  split at made
  · exact appendUntilCert_fresh made fresh
  split at made
  · obtain ⟨⟨cert, w₁⟩, walked, same⟩ := Option.bind_eq_some_iff.mp made
    cases same
    intro x member
    rcases List.mem_append.mp member with old | new
    · exact fresh x old
    · rw [List.mem_singleton.mp new]
      exact makeCertificate_transformed walked
  · cases made
    exact fresh

theorem makeCredential_fresh {fuel : Nat} {cred cred' : Credential} {w w' : Walker}
    (made : makeCredential t fuel cred w = some (cred', w')) (fresh : cred.Fresh) : cred'.Fresh := by
  induction fuel generalizing cred w with
  | zero => cases made
  | succ fuel ih =>
      simp only [makeCredential] at made
      split at made
      · split at made
        · rename_i step
          exact ih made (makeCredentialStep_fresh step fresh)
        · cases made
      · cases made
        exact fresh

theorem getCredential_fresh {mktime : Tm → Int} {now : Tm} {fuel : Nat} {cred : Credential}
    (built : getCredential t mktime now fuel = some (some cred)) : cred.Fresh := by
  simp only [getCredential] at built
  split at built
  · split at built
    · rename_i made
      cases built
      have fresh := makeCredential_fresh made (by simp [Credential.Fresh, Credential.empty])
      intro x member
      obtain ⟨cert, inside, rfl⟩ := List.mem_map.mp member
      have kept : (cert.setCertificateStr mktime now).transformedCls = cert.transformedCls := by
        simp only [Certificate.setCertificateStr]
        split <;> rfl
      rw [kept]
      exact fresh cert inside
    · cases built
  · cases built

end AstWalker

theorem Admission.binderText_eq {p : Platform} {im : TransportService} (a : Admission p im)
    (spelling : Spelling a.credential) :
    binderText a.policy a.checked =
      programText im.policy ((spelling.imports p.openssl).map clauseText) := by
  have fresh := AstWalker.getCredential_fresh a.built
  have saved := (spelling.written a.trusts fresh a.verified _).mp
    (returns_writeBinderFile.mpr ⟨_, _, a.hasPolicy, a.hasCredential, rfl⟩)
  have texts : ∀ {s t : Str},
      ([⟨.saveBinder s, true⟩] : History) = [⟨.saveBinder t, true⟩] → s = t := by
    intro s t same
    cases same
    rfl
  exact texts saved

/-! ## What is assumed of XSB -/

/-- A word that XSB reads as one atom or variable. -/
structure Grammar.Text.Readable (t : Text) : Prop where
  chars : ∀ c ∈ t.chars, c.isAlphanum = true ∨ c = '_'
  begins : ∃ c ∈ t.chars.head?, c.isDigit = false
  named : t.chars ≠ ['_']

/-- A predicate that XSB reads as an atom with arguments. -/
structure Grammar.Predicate.Readable (p : Predicate) : Prop where
  name : p.name.Readable
  constant : p.name.isVariable = false
  args : ∀ t ∈ p.arg :: p.args, t.Readable

def Statement.Readable : Statement → Prop
  | .holds p => p.Readable
  | .saysThat speaker s => speaker.Readable ∧ s.Readable

/-- A clause that XSB reads as it is written, and that calls none of XSB's own predicates. -/
structure ReadableClause (builtin : Str → Prop) (c : Horn.Rule Statement) : Prop where
  head : c.head.Readable
  body : ∀ b ∈ c.body, b.Readable
  pure : ∀ p, .holds p ∈ c.body → ¬ builtin p.name.chars

/-- The query about a request, with the white space around its arguments. -/
def askedQuery (keyDigest : Str) (l : RequestLayout) (r : Request) : Str :=
  allowQuery keyDigest
    [l.beforeOp.chars ++ r.op.chars ++ l.beforeComma.chars,
      l.beforeText.chars ++ r.text.chars ++ l.beforeClose.chars]

/-- `allow(K,op,text)` -/
def allowTerm (keyDigest : Str) (r : Request) (assigned : Str → Term) : Term :=
  .app "allow".toList [.app keyDigest [], r.op.ground assigned, r.text.ground assigned]

/-- XSB on a policy text with a meaning. When it runs to its end it writes a transcript,
    and when it answers a query about a request then as the program in the file has it. -/
structure Truthful (xsb : Str → Option Str → QueryEnd → Prop)
    (writes : Str → Option Str → Transcript → Prop) (builtin : Str → Prop) (policyText : Str)
    (policy : Horn.Program Term) : Prop where
  transcript : ∀ {cmd : Str} {file : Option Str} {out : Str}, xsb cmd file (.finished (some out)) →
    ∃ t, writes cmd file t ∧ out = t.text
  answers : ∀ {cs : List (Horn.Rule Statement)} {client : Text} {l : RequestLayout} {r : Request}
    {t : Transcript} {a : Answer}, (∀ c ∈ cs, ReadableClause builtin c) → r.op.Readable →
    r.text.Readable →
    writes (cstr (queryCommand (askedQuery client.chars l r)))
      (some (programText policyText (cs.map clauseText))) t → t.query = some a →
    (a.verdict = .yes ↔
      ∃ assigned, Horn.Derives (policy ∪ instances cs) (allowTerm client.chars r assigned))

/-! ## The query -/

theorem askedQuery_packed (client : Text) (l : RequestLayout) (r : Request) :
    packed (askedQuery client.chars l r) =
      "allow(".toList ++
        (client.chars ++ ',' :: (r.op.chars ++ ',' :: (r.text.chars ++ ").".toList))) := by
  have opening : packed "allow(".toList = "allow(".toList := by decide
  have comma : packed ",".toList = [','] := by decide
  have closing : packed ").".toList = ").".toList := by decide
  have between : packed [','] = [','] := by decide
  unfold askedQuery allowQuery
  rw [List.intercalate_cons_cons, List.intercalate_singleton]
  simp only [packed_append, opening, comma, closing, between, Gap.packed,
    packed_of_solid (Text.solid client), packed_of_solid (Text.solid r.op),
    packed_of_solid (Text.solid r.text), List.append_assoc, List.nil_append]
  simp only [List.singleton_append]

theorem askedQuery_clean (client : Text) (l : RequestLayout) (r : Request) :
    nul ∉ askedQuery client.chars l r := by
  have space : isSpace nul = false := by decide
  have letter : isTextChar nul = false := by decide
  have opening : nul ∉ "allow(".toList := by decide
  have comma : nul ∉ ",".toList := by decide
  have closing : nul ∉ ").".toList := by decide
  have between : nul ≠ ',' := by decide
  unfold askedQuery allowQuery
  rw [List.intercalate_cons_cons, List.intercalate_singleton]
  simp only [List.mem_append, opening, comma, closing, Text.not_mem letter, Gap.not_mem space,
    List.mem_singleton, between, or_self, not_false_eq_true]

theorem command_inj {client client' : Text} {l l' : RequestLayout} {r r' : Request}
    (same : cstr (queryCommand (askedQuery client.chars l r)) =
      cstr (queryCommand (askedQuery client'.chars l' r'))) :
    client = client' ∧ r.op = r'.op ∧ r.text = r'.text := by
  have whole : ∀ (client : Text) (l : RequestLayout) (r : Request),
      cstr (queryCommand (askedQuery client.chars l r)) =
        queryCommand (askedQuery client.chars l r) := by
    intro client l r
    have clean : nul ∉ queryCommand [] := by decide +kernel
    have options : ∀ a b c query : Str, nul ∉ a ++ (b ++ [] ++ c) → nul ∉ query →
        nul ∉ a ++ (b ++ query ++ c) := by
      intro a b c query outside inside
      simp only [List.mem_append, List.append_nil, not_or] at outside ⊢
      exact ⟨outside.1, ⟨outside.2.1, inside⟩, outside.2.2⟩
    exact cstr_of_clean (options _ _ _ _ clean (askedQuery_clean client l r))
  rw [whole, whole] at same
  have queries :=
    List.append_cancel_left (List.append_cancel_right (List.append_cancel_left same))
  have cut := congrArg packed queries
  rw [askedQuery_packed, askedQuery_packed] at cut
  have closing : ").".toList = ')' :: ['.'] := by decide
  obtain ⟨rfl, -, ops⟩ := word_cut (.inr (.inl rfl)) (.inr (.inl rfl)) (List.append_cancel_left cut)
  obtain ⟨op, -, texts⟩ := word_cut (.inr (.inl rfl)) (.inr (.inl rfl)) ops
  rw [closing] at texts
  obtain ⟨text, -, -⟩ := word_cut (.inr (.inr rfl)) (.inr (.inr rfl)) texts
  exact ⟨rfl, op, text⟩

/-! ## The reply -/

theorem generateQuery_request (cred : Credential) (l : RequestLayout) (r : Request) (after : Str) :
    generateQuery (some cred) (l.message r after) = some (askedQuery cred.keyDigest l r) := by
  rcases generateQuery_eq cred (l.message_ne_nil r after) with ⟨-, noArgs⟩ | made
  · rw [argumentText_message] at noArgs
    simp at noArgs
  · rw [argumentText_message, scanArgs_request] at made
    exact made

theorem askedQuery_ne_nil (keyDigest : Str) (l : RequestLayout) (r : Request) :
    askedQuery keyDigest l r ≠ [] := by
  have some : ").".toList ≠ [] := by decide
  exact List.append_ne_nil_of_right_ne_nil _ some

theorem reply_not_challenge (challenge decision : Str) :
    replyMsg decision ≠ challengeMsg challenge := by
  have differ : beginServerResponseS.take 12 ≠ beginChallengeS.take 12 := by decide +kernel
  have long : 12 ≤ beginServerResponseS.length ∧ 12 ≤ beginChallengeS.length := by decide +kernel
  intro same
  have begins := congrArg (List.take 12) same
  simp only [replyMsg, challengeMsg, List.append_assoc] at begins
  rw [List.take_append_of_le_length long.1, List.take_append_of_le_length long.2] at begins
  exact differ begins

theorem granted_reply : grantS <:+: replyMsg grantS :=
  (find_isSome_iff _ _).mp (by decide +kernel)

theorem replyMsg_inj {b b' : Bool} (same : replyMsg (if b then grantS else denyS) =
    replyMsg (if b' then grantS else denyS)) : b = b' := by
  have differ : replyMsg grantS ≠ replyMsg denyS := by
    intro equal
    exact denied_not_granted (equal ▸ granted_reply)
  cases b with
  | false =>
      cases b' with
      | false => rfl
      | true => exact absurd same.symm differ
  | true =>
      cases b' with
      | false => exact absurd same differ
      | true => rfl

theorem reply_of_answerQuery {im : TransportService} {query : Str} (nonempty : query ≠ [])
    {begun later : History} {rest : Server Unit} {fd n : Int} {granted : Bool}
    (run : Steps (answerQuery im query)
      (begun ++ ⟨.write fd (replyMsg (if granted then grantS else denyS)), n⟩ :: later) rest) :
    ∃ loaded ending, begun = [⟨.popen (cstr (queryCommand query)), (loaded, ending)⟩,
        ⟨.note (.executed query granted), ()⟩] ∧
      ((ending = .noThread ∧ granted = false) ∨
        ∃ out, ending = .finished out ∧ executeQueryProc out = some granted) := by
  obtain ⟨b, loaded, ending, same, rfl, decided⟩ := write_of_answerQuery nonempty run
  obtain rfl := replyMsg_inj same
  exact ⟨loaded, ending, rfl, decided⟩

theorem executeQueryProc_answered {t : Transcript} {a : Answer} (answered : t.query = some a) {b : Bool}
    (decided : executeQueryProc (some t.text) = some b) : b = true ↔ a.verdict = .yes := by
  obtain ⟨load, query⟩ := t
  cases answered
  have whole : ∃ before, Transcript.text ⟨load, some a⟩ = bindingText before ++ a.text := by
    cases load with
    | none => exact ⟨[], by simp [Transcript.text, answerText, bindingText]⟩
    | some c => exact ⟨c.lines, by simp [Transcript.text, answerText, Answer.text_lines c]⟩
  obtain ⟨before, whole⟩ := whole
  rw [whole, executeQueryProc_answer] at decided
  split at decided
  · cases decided
  · rw [← Option.some.inj decided, decide_eq_true_iff]

theorem popen_given {p : Platform} {xsb : Str → Option Str → QueryEnd → Prop} {m : Mode} {file : World}
    {s : Pool Call Reply Mode World} (reach : (server p xsb).Reachable m file s)
    {proc : Process Call Reply Mode} (member : proc ∈ s.procs) {cmd : Str} {loaded : Option Str}
    {ending : QueryEnd} (made : ⟨.popen cmd, (loaded, ending)⟩ ∈ proc.history) :
    xsb cmd loaded ending := by
  rcases reach.given proc member _ made with ⟨w, w', same, runs, -⟩ | ⟨r, double⟩
  · exact same ▸ runs
  · cases double

section

variable {p : Platform} {xsb : Str → Option Str → QueryEnd → Prop}
  {writes : Str → Option Str → Transcript → Prop} {builtin : Str → Prop} {policyText : Str}
  {policy : Horn.Program Term}

/-- What stands before a reply. Where a well-formed request was read, the query about it was
    asked. -/
theorem exists_exchange {socketInit : Bool} {file : World} {s : Pool Call Reply Mode World}
    (reach : (server p xsb).Reachable (startListening policyText socketInit) file s)
    {proc : Process Call Reply Mode} (member : proc ∈ s.procs) {past later : History} {fd n : Int}
    {granted : Bool} (cut : proc.history =
      past ++ ⟨.write fd (replyMsg (if granted then grantS else denyS)), n⟩ :: later) :
    ∃ x : Exchange p policyText past, x.session.fd = fd ∧
      ∀ (l : RequestLayout) (r : Request) (after : Str),
      cstr (bytesOf x.reads) = l.message r after →
      let query := askedQuery (getKeyDigest p.openssl x.session.admission.credential.pubKey) l r
      ∃ loaded ending, x.asked = [⟨.popen (cstr (queryCommand query)), (loaded, ending)⟩,
          ⟨.note (.executed query granted), ()⟩] ∧
        ∀ out, ending = .finished (some out) →
          xsb (cstr (queryCommand query)) loaded (.finished (some out)) ∧
          executeQueryProc (some out) = some granted := by
  obtain ⟨life, -⟩ := life_of_runs (reach.runs proc member)
  obtain ⟨session, reads, asked, later', query, rest, rfl, isRead, -, generated, run⟩ :=
    life.cut_answer cut id nofun nofun fun f checks => reply_not_challenge _ _ checks.2
  have wrote := run.only (answerQuery_only session.im query)
    ⟨.write fd (replyMsg (if granted then grantS else denyS)), n⟩ (by simp)
  have socket : session.fd = fd := (wrote.1.trans session.sameSocket).symm
  have isAsked : ∀ e ∈ asked, Asks e := by
    by_cases nonempty : query = []
    · subst nonempty
      rcases steps_call.mp run with ⟨none, -⟩ | ⟨_, h, whole, done⟩
      · simp at none
      · obtain ⟨rfl, -⟩ := steps_ret.mp done
        rw [(List.append_eq_singleton_iff.mp whole |>.resolve_right (by simp)).1]
        exact List.forall_mem_nil _
    · obtain ⟨loaded, ending, rfl, -⟩ := reply_of_answerQuery nonempty run
      simp [Asks]
  refine ⟨⟨session, reads, asked, isRead, isAsked, rfl⟩, socket, fun l r after request => ?_⟩
  have digest : session.credential.keyDigest =
      getKeyDigest p.openssl session.admission.credential.pubKey :=
    session.admission.credential_policy.2.1
  have request : cstr (bytesOf reads) = l.message r after := request
  rw [request, generateQuery_request, digest, Option.some.injEq] at generated
  subst generated
  obtain ⟨loaded, ending, rfl, decided⟩ := reply_of_answerQuery (askedQuery_ne_nil _ l r) run
  refine ⟨loaded, ending, rfl, ?_⟩
  rintro out rfl
  refine ⟨popen_given reach member (by rw [cut]; simp), ?_⟩
  rcases decided with ⟨noThread, -⟩ | ⟨_, same, decided⟩
  · cases noThread
  · cases same
    exact decided

theorem Exchange.asked_query {socketInit : Bool} {file : World} {s : Pool Call Reply Mode World}
    (reach : (server p xsb).Reachable (startListening policyText socketInit) file s)
    {proc : Process Call Reply Mode} (member : proc ∈ s.procs) {past later : History} {fd n : Int}
    {granted : Bool} (cut : proc.history =
      past ++ ⟨.write fd (replyMsg (if granted then grantS else denyS)), n⟩ :: later)
    (x : Exchange p policyText past) {l : RequestLayout} {r : Request} {after : Str}
    (request : cstr (bytesOf x.reads) = l.message r after) :
    let query := askedQuery (getKeyDigest p.openssl x.session.admission.credential.pubKey) l r
    ∃ loaded ending, x.asked = [⟨.popen (cstr (queryCommand query)), (loaded, ending)⟩,
        ⟨.note (.executed query granted), ()⟩] ∧
      ∀ out, ending = .finished (some out) →
        xsb (cstr (queryCommand query)) loaded (.finished (some out)) ∧
        executeQueryProc (some out) = some granted := by
  obtain ⟨y, -, asks⟩ := exists_exchange reach member cut
  obtain ⟨credential, reads, asked⟩ := x.unique y
  rw [reads] at request
  rw [credential, asked]
  exact asks l r after request

/-- Over the session's own program XSB decides what the program derives. -/
theorem Session.entailed (session : Session p policyText)
    (truthful : Truthful xsb writes builtin policyText policy)
    (spelling : Spelling session.admission.credential)
    (readable : ∀ c ∈ spelling.imports p.openssl, ReadableClause builtin c) {l : RequestLayout}
    {r : Request} (readableOp : r.op.Readable) (readableText : r.text.Readable)
    {loaded : Option Str} {out : Str} {granted : Bool}
    (own : loaded = some (binderText session.admission.policy session.admission.checked))
    (answered : xsb (cstr (queryCommand (askedQuery
        (getKeyDigest p.openssl session.admission.credential.pubKey) l r))) loaded
        (.finished (some out)) ∧
      executeQueryProc (some out) = some granted) :
    ∃ t, writes (cstr (queryCommand (askedQuery
        (getKeyDigest p.openssl session.admission.credential.pubKey) l r))) loaded t ∧
      out = t.text ∧ ∀ a, t.query = some a →
        (granted = true ↔ ∃ assigned, Horn.Derives (policy ∪ instances (spelling.imports p.openssl))
          (allowTerm (getKeyDigest p.openssl session.admission.credential.pubKey) r assigned)) := by
  obtain ⟨made, decided⟩ := answered
  obtain ⟨t, writes, rfl⟩ := truthful.transcript made
  refine ⟨t, writes, rfl, fun a answered => ?_⟩
  rw [own, session.admission.binderText_eq spelling, session.policyKept] at writes
  rw [executeQueryProc_answered answered decided]
  exact @truthful.answers _ (keyWord p.openssl session.admission.credential.pubKey) l r t
    a readable readableOp readableText writes answered

end

/-- In every run, before each reply stands the session that wrote it. And a reply to a
    well-formed request whose query XSB answers over the session's own program is `granted`
    exactly when the policy and the contexts of the credential's keys have the service believe
    that the client is allowed what it asks. -/
theorem reply_is_entailed {p : Platform} {xsb : Str → Option Str → QueryEnd → Prop}
    {writes : Str → Option Str → Transcript → Prop} {builtin : Str → Prop} {policyText : Str}
    {policy : Horn.Program Term} (truthful : Truthful xsb writes builtin policyText policy)
    {socketInit : Bool} {file : World} {s : Pool Call Reply Mode World}
    (reach : (server p xsb).Reachable (startListening policyText socketInit) file s)
    {proc : Process Call Reply Mode} (member : proc ∈ s.procs) {past later : History} {fd n : Int}
    {granted : Bool} (cut : proc.history =
      past ++ ⟨.write fd (replyMsg (if granted then grantS else denyS)), n⟩ :: later) :
    (∃ x : Exchange p policyText past, x.session.fd = fd) ∧
    ∀ (x : Exchange p policyText past) (spelling : Spelling x.session.admission.credential),
      spelling.Decided → (∀ c ∈ spelling.imports p.openssl, ReadableClause builtin c) →
      ∀ (l : RequestLayout) (r : Request) (after : Str),
      cstr (bytesOf x.reads) = l.message r after → r.op.Readable → r.text.Readable →
      let keyDigest := getKeyDigest p.openssl x.session.admission.credential.pubKey
      let cmd := cstr (queryCommand (askedQuery keyDigest l r))
      ∃ loaded ending, x.asked = [⟨.popen cmd, (loaded, ending)⟩,
          ⟨.note (.executed (askedQuery keyDigest l r) granted), ()⟩] ∧
        ∀ out, ending = .finished (some out) →
        loaded = some (binderText x.session.admission.policy x.session.admission.checked) →
        ∃ t, writes cmd loaded t ∧ out = t.text ∧ ∀ a, t.query = some a →
          (granted = true ↔ ∃ assigned, Believes (spelling.setting p.openssl policy) none
            (allowTerm keyDigest r assigned)) := by
  constructor
  · obtain ⟨x, socket, -⟩ := exists_exchange reach member cut
    exact ⟨x, socket⟩
  intro x spelling decided readable l r after request readableOp readableText
  obtain ⟨loaded, ending, isAsked, answered⟩ := x.asked_query reach member cut request
  refine ⟨loaded, ending, isAsked, fun out finished own => ?_⟩
  obtain ⟨t, writes, isText, decides⟩ := x.session.entailed truthful spelling readable readableOp
    readableText own (answered out finished)
  refine ⟨t, writes, isText, fun a answer => (decides a answer).trans ?_⟩
  refine exists_congr fun assigned => ?_
  rw [← Spelling.setting_program p.openssl decided policy]
  exact derives_iff_believes _ _

/-! ## A client that is granted what it may do -/

def gateText : Str := " allow(K,Op,File):-says(K,user(alice)).\n".toList

/-- The service with this policy, before and after the credential of alice is verified. -/
def gateService (policy : Policy) (credPtr : Option Credential) : SecurityService :=
  { policyStr := gateText, policy := some policy, credPtr }

def gateRules : List RepositoryManager.Rule :=
  [{ head := "allow(K,Op,File)".toList, body := "says(K,user(alice)).".toList
     atom := "allow(K,Op,File):-says(K,user(alice)).".toList
     clauses := ["says(K,user(alice))".toList] }]

/-- The admission of alice under this policy. -/
def gateAdmission (fd : Int) :
    Admission villagePlatform (childImage gateText fd (userMsg alice)) where
  clock := fun _ => 0
  tree := userTree alice
  credential := userCredential alice [] []
  trusting := gateService ⟨gateText, [], [], gateRules⟩ none
  curTimes := fun _ => 0
  ss := gateService ⟨gateText, userDigest alice, [userLine alice], gateRules⟩ (some (userChecked alice))
  policy := ⟨gateText, userDigest alice, [userLine alice], gateRules⟩
  checked := userChecked alice
  sent := 1
  answers := oneRead fd endResponseS
  nonempty := by
    rw [childImage, cstr_of_clean alice_known.clean]
    exact alice_known.nonempty
  parsed := by
    rw [childImage, cstr_of_clean alice_known.clean]
    exact alice_known.parsed
  built := alice_known.built
  trusts := show SecurityService.empty.setPolicy gateText = _ by decide +kernel
  verified := by decide +kernel
  hasPolicy := rfl
  hasCredential := rfl
  reads := oneRead_reads fd endResponseS
  signed := response_signed alice fd _ _

/-- The request of alice, over three lines. -/
def gateRequest : Str := linesLayout.message viewFile ['\n']

/-- What alice's request asks for. -/
def gateQuery : Str := askedQuery (userDigest alice) linesLayout viewFile

/-- An XSB that answers every query, and each about a request as the program in the file has
    it. -/
def trueWrites (cmd : Str) (file : Option Str) (t : Transcript) : Prop :=
  t.query.isSome = true ∧
  ∀ (cs : List (Horn.Rule Statement)) (client : Text) (l : RequestLayout) (r : Request) (a : Answer),
    cmd = cstr (queryCommand (askedQuery client.chars l r)) →
    file = some (programText gateText (cs.map clauseText)) → t.query = some a →
    (a.verdict = .yes ↔
      ∃ assigned, Horn.Derives (gate ∪ instances cs) (allowTerm client.chars r assigned))

def trueXsb (cmd : Str) (file : Option Str) (ending : QueryEnd) : Prop :=
  ∃ t, trueWrites cmd file t ∧ ending = .finished (some t.text)

theorem trueXsb_truthful : Truthful trueXsb trueWrites (fun _ => False) gateText gate where
  transcript := by
    rintro cmd file out ⟨t, writes, same⟩
    cases same
    exact ⟨t, writes, rfl⟩
  answers := by
    intro cs client l r t a _ _ _ writes answered
    exact writes.2 cs client l r a rfl rfl answered

theorem gate_allows : Horn.Derives (gate ∪ instances (aliceSpelling.imports .trusting))
    (allowTerm (userDigest alice) viewFile fun x => .app x []) := by
  let assigned : Str → Term := fun x =>
    if x = "K".toList then .app (userDigest alice) []
    else if x = "Op".toList then .app "view".toList []
    else .app "file".toList []
  have words : gateClause.map (Statement.ground assigned) =
      ⟨allowTerm (userDigest alice) viewFile fun x => .app x [],
        [Term.saysThat (.app (userDigest alice) []) userAlice]⟩ := rfl
  have rule : Horn.Rule.mk (allowTerm (userDigest alice) viewFile fun x => .app x [])
      [Term.saysThat (.app (userDigest alice) []) userAlice] ∈
        gate ∪ instances (aliceSpelling.imports .trusting) :=
    .inl ⟨gateClause, List.mem_singleton.mpr rfl, assigned, words.symm⟩
  refine Horn.Derives.rule rule fun b member => ?_
  rw [List.mem_singleton.mp member]
  refine Horn.Derives.rule (r := ⟨Term.saysThat (.app (userDigest alice) []) userAlice, []⟩)
    (.inr ⟨_, List.mem_flatMap.mpr ⟨_, List.mem_singleton.mpr rfl, List.mem_singleton.mpr rfl⟩,
      fun x => .app x [], ?_⟩) (by simp)
  exact (Spelling.imported_ground .trusting (userKey alice) _ userClause_decided).symm

theorem gate_answered : trueXsb (cstr (queryCommand gateQuery))
    (some (programText gateText ((aliceSpelling.imports .trusting).map clauseText)))
    (.finished (some twiceYes)) := by
  refine ⟨⟨some ⟨[], .yes⟩, some ⟨[], .yes⟩⟩, ⟨rfl, ?_⟩, rfl⟩
  intro cs client l r a sameCmd sameFile answered
  cases answered
  obtain ⟨rfl, op, text⟩ := @command_inj (keyWord .trusting (userKey alice)) _ _ _ _ _ sameCmd
  obtain rfl := programText_inj (Option.some.inj sameFile)
  refine iff_of_true rfl ⟨fun x => .app x [], ?_⟩
  have asked : allowTerm (userDigest alice) r (fun x => .app x []) =
      allowTerm (userDigest alice) viewFile fun x => .app x [] := by
    rw [allowTerm, allowTerm, op, text]
  exact asked ▸ gate_allows

/-- The program with alice's clause. -/
def gateProgram : Str := programText gateText ((aliceSpelling.imports .trusting).map clauseText)

/-- Alice's query, and its answer. -/
def gateAsked : History :=
  [⟨.popen (cstr (queryCommand gateQuery)), (some gateProgram, .finished (some twiceYes))⟩,
    ⟨.note (.executed gateQuery true), ()⟩]

/-- A history in which alice is admitted on this connection and asks to view the file. -/
def AsksToView (fd : Int) (past : History) : Prop :=
  ∃ front, (∀ e ∈ front, Listens e) ∧ past = front ++ ⟨.fork, .child⟩ ::
    ((gateAdmission fd).history ++ ([] ++ (oneRead fd gateRequest ++ gateAsked)))

theorem gate_admitted {s : Pool Call Reply Mode World} {fd : Int} (nonzero : fd ≠ 0)
    (reach : (server villagePlatform trueXsb).Reachable (startListening gateText true) none s)
    (home : AtHome villagePlatform gateText s) :
    ∃ t, (server villagePlatform trueXsb).Reachable (startListening gateText true) none t ∧
      AtHome villagePlatform gateText t ∧ t.procs.length = s.procs.length + 1 ∧
      (∀ i q, 0 < i → s.procs[i]? = some q → t.procs[i]? = some q) ∧
      (∃ q, t.procs[s.procs.length]? = some q ∧
        q.own = ⟨.fork, .child⟩ :: (gateAdmission fd).history ∧
        q.rest = .ret (.serving (gateAdmission fd).image)) ∧ t.world = some gateProgram := by
  have heard : (gateAdmission fd).response = endResponseS := oneRead_text fd endResponseS_clean
  have received : Returns (receive fd endResponseS []) (gateAdmission fd).answers
      (gateAdmission fd).response := by
    rw [heard]
    exact receive_oneRead fd endResponseS_clean (by decide +kernel)
  obtain ⟨t, reach', home', length, same, child, world, -⟩ :=
    open_session reach home nonzero (by decide +kernel) (gateAdmission fd) received
      fun file => reads_answered (by decide +kernel) file
  refine ⟨t, reach', home', length, same, child, world.trans (congrArg some ?_)⟩
  exact (gateAdmission fd).binderText_eq aliceSpelling

theorem gate_granted {s : Pool Call Reply Mode World} {fd : Int} {i : Nat}
    {q : Process Call Reply Mode}
    (reach : (server villagePlatform trueXsb).Reachable (startListening gateText true) none s)
    (found : s.procs[i]? = some q) (own : q.own = ⟨.fork, .child⟩ :: (gateAdmission fd).history)
    (waits : q.rest = .ret (.serving (gateAdmission fd).image)) (world : s.world = some gateProgram) :
    ∃ t, (server villagePlatform trueXsb).Reachable (startListening gateText true) none t ∧
      (∃ q' past, t.procs[i]? = some q' ∧ AsksToView fd past ∧
        q'.history = past ++ [⟨.write fd (replyMsg grantS), (1 : Int)⟩]) ∧
      (∀ j q, j ≠ i → s.procs[j]? = some q → t.procs[j]? = some q) ∧ t.world = some gateProgram := by
  have clean : nul ∉ gateRequest := by decide +kernel
  have generated : generateQuery (some (userChecked alice)) gateRequest = some gateQuery :=
    generateQuery_request (userChecked alice) linesLayout viewFile ['\n']
  obtain ⟨t, reach', ⟨q', at_i, inherited, own'⟩, same, world', -⟩ := ask_query reach found waits
    (userChecked alice) rfl (receive_oneRead fd clean (by decide +kernel))
    (fun file => reads_answered (by decide +kernel) file) ⟨rfl, by decide +kernel, by decide +kernel⟩
    generated (askedQuery_ne_nil _ _ _) (world ▸ gate_answered) executeQueryProc_twiceYes
  have listened := inherited_listens reach q (List.mem_of_getElem? found)
  refine ⟨t, reach', ⟨q', _, at_i, ⟨q.inherited, listened, rfl⟩, ?_⟩, same, world'.trans world⟩
  rw [Process.history, inherited, own', own, world]
  simp [answerHistory, gateAsked, Admission.image, childImage, parentImage]

theorem alice_granted : ∃ (s : Pool Call Reply Mode World) (proc proc' : Process Call Reply Mode)
    (past past' : History),
      (server villagePlatform trueXsb).Reachable (startListening gateText true) none s ∧
      proc ∈ s.procs ∧ proc' ∈ s.procs ∧ AsksToView 4 past ∧ AsksToView 5 past' ∧
      proc.history = past ++ [⟨.write 4 (replyMsg grantS), (1 : Int)⟩] ∧
      proc'.history = past' ++ [⟨.write 5 (replyMsg grantS), (1 : Int)⟩] := by
  obtain ⟨s₁, reach₁, home₁, length₁, -, ⟨q₁, at_1, own₁, waits₁⟩, -⟩ :=
    gate_admitted (show (4 : Int) ≠ 0 by decide) .init
      (atHome_init villagePlatform trueXsb gateText none)
  have one : s₁.procs.length = 2 := length₁
  obtain ⟨s₂, reach₂, -, -, same₂, ⟨q₂, at_2, own₂, waits₂⟩, world₂⟩ :=
    gate_admitted (show (5 : Int) ≠ 0 by decide) reach₁ home₁
  rw [one] at at_2
  obtain ⟨s₃, reach₃, ⟨q₃, past, at_3, asks, cut⟩, same₃, world₃⟩ :=
    gate_granted reach₂ (same₂ 1 q₁ (by decide) at_1) own₁ waits₁ world₂
  obtain ⟨s₄, reach₄, ⟨q₄, past', at_4, asks', cut'⟩, same₄, -⟩ :=
    gate_granted reach₃ (same₃ 2 q₂ (by decide) at_2) own₂ waits₂ world₃
  exact ⟨s₄, q₃, q₄, past, past', reach₄, List.mem_of_getElem? (same₄ 1 q₃ (by decide) at_3),
    List.mem_of_getElem? at_4, asks, asks', cut, cut'⟩

theorem alice_spelled {c : Credential} (same : c = userCredential alice [] []) :
    ∃ spelling : Spelling c, spelling.Decided ∧
      spelling.imports .trusting = aliceSpelling.imports .trusting ∧
      ∀ policy, spelling.setting .trusting policy = aliceSpelling.setting .trusting policy := by
  subst same
  exact ⟨aliceSpelling, aliceSpelling_decided, rfl, fun _ => rfl⟩

theorem readable_of_all {t : Text} (chars : t.chars.all fun c => c.isAlphanum || c = '_')
    (begins : t.chars.head?.any fun c => !c.isDigit) (named : t.chars ≠ ['_']) : t.Readable where
  chars := by simpa using chars
  begins := by simpa [Option.any_eq_true] using begins
  named := named

theorem gate_readable : ∀ c ∈ aliceSpelling.imports .trusting, ReadableClause (fun _ => False) c := by
  intro c member
  obtain ⟨cert, inCerts, inClauses⟩ := List.mem_flatMap.mp member
  obtain ⟨g, inSaid, rfl⟩ := List.mem_map.mp inClauses
  rw [List.mem_singleton.mp inCerts, List.mem_singleton.mp inSaid]
  have speaker : (keyWord .trusting (userKey alice)).Readable :=
    readable_of_all (by decide +kernel) (by decide +kernel) (by decide +kernel)
  have user : Predicate.Readable ⟨.of "user", .of "alice", []⟩ :=
    { name := readable_of_all (by decide) (by decide) (by decide)
      constant := by decide
      args := List.forall_mem_singleton.mpr (readable_of_all (by decide) (by decide) (by decide)) }
  exact ⟨⟨speaker, user⟩, List.forall_mem_nil _, fun _ => List.not_mem_nil.elim⟩

theorem gate_ending {cmd : Str} {loaded : Option Str} {ending : QueryEnd} {e : Event Call Reply}
    (same : gateAsked = [⟨.popen cmd, (loaded, ending)⟩, e]) :
    loaded = some gateProgram ∧ ending = .finished (some twiceYes) := by
  obtain ⟨first, -⟩ := List.cons.inj same
  injection first with call reply
  cases call
  cases reply
  exact ⟨rfl, rfl⟩

theorem AsksToView.exchange {fd : Int} {past : History} (asks : AsksToView fd past) {p : Platform}
    {policyText : Str} (village : p = villagePlatform) (isGate : policyText = gateText)
    (x : Exchange p policyText past) :
    x.session.admission.credential = userCredential alice [] [] ∧
      cstr (bytesOf x.reads) = linesLayout.message viewFile ['\n'] ∧ x.asked = gateAsked ∧
      binderText x.session.admission.policy x.session.admission.checked = gateProgram := by
  subst village isGate
  obtain ⟨front, listened, whole⟩ := asks
  have parted : Parted (gateAdmission fd) front [] (oneRead fd gateRequest) gateAsked fd :=
    ⟨listened, by simp, oneRead_reads fd gateRequest, by simp [gateAsked, Asks]⟩
  obtain ⟨-, credential, reads, asked⟩ := x.parted.unique parted (x.parts.symm.trans whole)
  obtain ⟨spelling, -, imports, -⟩ := alice_spelled credential
  refine ⟨credential, ?_, asked, ?_⟩
  · rw [reads]
    exact oneRead_text fd (show nul ∉ gateRequest by decide +kernel)
  · rw [x.session.admission.binderText_eq spelling, x.session.policyKept, gateProgram, ← imports]
    rfl

theorem viewFile_readable : viewFile.op.Readable ∧ viewFile.text.Readable :=
  ⟨readable_of_all (by decide) (by decide) (by decide),
    readable_of_all (by decide) (by decide) (by decide)⟩

theorem reply_is_entailed_alice :
    ∃ (s : Pool Call Reply Mode World) (proc : Process Call Reply Mode) (past : History) (n : Int)
      (x : Exchange villagePlatform gateText past),
      (server villagePlatform trueXsb).Reachable (startListening gateText true) none s ∧
      proc ∈ s.procs ∧ proc.history = past ++ [⟨.write 4 (replyMsg grantS), n⟩] ∧
      x.session.fd = 4 ∧ x.session.admission.credential = userCredential alice [] [] ∧
      cstr (bytesOf x.reads) = linesLayout.message viewFile ['\n'] ∧ x.asked = gateAsked ∧
      ∃ assigned, Believes (aliceSpelling.setting .trusting gate) none
        (allowTerm (userDigest alice) viewFile assigned) := by
  obtain ⟨s, proc, -, past, -, reach, member, -, asks, -, cut, -⟩ := alice_granted
  have granted : proc.history =
      past ++ ⟨.write 4 (replyMsg (if true then grantS else denyS)), 1⟩ :: [] := cut
  obtain ⟨⟨x, socket⟩, entailed⟩ := reply_is_entailed trueXsb_truthful reach member granted
  obtain ⟨credential, request, asked, own⟩ := asks.exchange rfl rfl x
  refine ⟨s, proc, past, 1, x, reach, member, cut, socket, credential, request, asked, ?_⟩
  obtain ⟨spelling, decided, imports, setting⟩ := alice_spelled credential
  have readable : ∀ c ∈ spelling.imports .trusting, ReadableClause (fun _ => False) c :=
    imports ▸ gate_readable
  obtain ⟨loaded, ending, isAsked, decides⟩ := entailed x spelling decided readable linesLayout
    viewFile ['\n'] request viewFile_readable.1 viewFile_readable.2
  rw [show spelling.setting villagePlatform.openssl gate = aliceSpelling.setting .trusting gate from
    setting gate] at decides
  rw [credential] at isAsked decides
  obtain ⟨rfl, rfl⟩ := gate_ending (asked.symm.trans isAsked)
  obtain ⟨t, writes, -, decided⟩ := decides _ rfl (congrArg some own.symm)
  obtain ⟨a, answered⟩ := Option.isSome_iff_exists.mp writes.1
  exact (decided a answered).mp rfl

end RepositoryManager
