import RepositoryManager.Monitor
import RepositoryManager.Startup

/-! # What a grant rests on

A certificate only adds what its key says. So no credential grants anything by itself: behind
each grant that XSB answers for stands a rule of the policy. And a credential that says more is
granted no less.
-/

namespace RepositoryManager

open ByteString Grammar Contexts Interaction Interaction.Prog ProcessPool

namespace Spelling

variable {o : OpenSSL} {c c' : Credential} {spelling : Spelling c} {spelling' : Spelling c'}

theorem imports_head {r : Horn.Rule Term} (imported : r ∈ instances (spelling.imports o)) :
    ∃ k a, r.head = .saysThat k a := by
  obtain ⟨_, inImports, assigned, rfl⟩ := imported
  obtain ⟨cert, -, inClauses⟩ := List.mem_flatMap.mp inImports
  obtain ⟨g, -, rfl⟩ := List.mem_map.mp inClauses
  cases g <;> exact ⟨_, _, rfl⟩

/-- A permission is derived by a rule of the policy. -/
theorem allow_by_policy (decided : spelling.Decided) {policy : Horn.Program Term} {keyDigest : Str}
    {r : Request} {assigned : Str → Term}
    (derived :
      Horn.Derives (policy ∪ instances (spelling.imports o)) (allowTerm keyDigest r assigned)) :
    ∃ rule ∈ policy, rule.head = allowTerm keyDigest r assigned ∧
      ∀ b ∈ rule.body, Believes (spelling.setting o policy) none b := by
  obtain ⟨rule, inPolicy | imported, head, body⟩ := derived.last
  · refine ⟨rule, inPolicy, head, fun b member => ?_⟩
    rw [← derives_iff_believes, setting_program o decided]
    exact body b member
  · obtain ⟨k, a, quoted⟩ := imports_head imported
    have differ : "allow".toList ≠ "says".toList := by decide
    exact absurd (Term.app.inj (head.symm.trans quoted)).1 differ

/-- What keys say in the one credential, they say in the other as well. -/
def Within (o : OpenSSL) (spelling : Spelling c) (spelling' : Spelling c') : Prop :=
  ∀ cert ∈ c.certificates, ∀ g ∈ spelling.said cert, ∃ cert' ∈ c'.certificates,
    getKeyDigest o cert'.pubKey = getKeyDigest o cert.pubKey ∧ g ∈ spelling'.said cert'

theorem Within.imports (within : spelling.Within o spelling') :
    ∀ x ∈ spelling.imports o, x ∈ spelling'.imports o := by
  intro x inImports
  obtain ⟨cert, inCerts, inClauses⟩ := List.mem_flatMap.mp inImports
  obtain ⟨g, inSaid, rfl⟩ := List.mem_map.mp inClauses
  obtain ⟨cert', inCerts', sameKey, inSaid'⟩ := within cert inCerts g inSaid
  have sameWord : keyWord o cert'.pubKey = keyWord o cert.pubKey := by
    simp only [keyWord, sameKey]
  refine List.mem_flatMap.mpr ⟨cert', inCerts', List.mem_map.mpr ⟨g, inSaid', ?_⟩⟩
  rw [sameWord]

theorem Within.derives (within : spelling.Within o spelling') {policy : Horn.Program Term} {a : Term}
    (derived : Horn.Derives (policy ∪ instances (spelling.imports o)) a) :
    Horn.Derives (policy ∪ instances (spelling'.imports o)) a :=
  derived.mono <| Set.union_subset_union_right _ fun _ ⟨x, inImports, made⟩ =>
    ⟨x, within.imports x inImports, made⟩

end Spelling

variable {p : Platform} {xsb : Str → Option Str → QueryEnd → Prop}
  {writes : Str → Option Str → Transcript → Prop} {builtin : Str → Prop}
  {policy : Horn.Program Term}

/-- However the server was started: a process only writes `granted` if there were enough
    arguments and `socketInit` was set. And behind each that answers a well-formed request, for
    which XSB decided over the session's own program, stands a rule of the policy whose premises
    the service believes. -/
theorem grants_need_a_rule {launch : Launch}
    (truthful : Truthful xsb writes builtin launch.policy policy) {file : World}
    {s : Pool Call Reply Mode World}
    (reach : (server (launch.platform p) xsb).Reachable launch.main file s)
    {proc : Process Call Reply Mode} (member : proc ∈ s.procs) {past later : History} {fd n : Int}
    (cut : proc.history = past ++ ⟨.write fd (replyMsg grantS), n⟩ :: later) :
    launch.Opens ∧ (∃ x : Exchange (launch.platform p) launch.policy past, x.session.fd = fd) ∧
    ∀ (x : Exchange (launch.platform p) launch.policy past)
      (spelling : Spelling x.session.admission.credential), spelling.Decided →
      (∀ c ∈ spelling.imports p.openssl, ReadableClause builtin c) →
      ∀ (l : RequestLayout) (r : Request) (after : Str),
      cstr (bytesOf x.reads) = l.message r after → r.op.Readable → r.text.Readable →
      let keyDigest := getKeyDigest p.openssl x.session.admission.credential.pubKey
      let cmd := cstr (queryCommand (askedQuery keyDigest l r))
      ∃ loaded ending, x.asked = [⟨.popen cmd, (loaded, ending)⟩,
          ⟨.note (.executed (askedQuery keyDigest l r) true), ()⟩] ∧
        ∀ out, ending = .finished (some out) →
        loaded = some (binderText x.session.admission.policy x.session.admission.checked) →
        ∃ t, writes cmd loaded t ∧ out = t.text ∧ ∀ a, t.query = some a →
          ∃ rule ∈ policy, ∃ assigned, rule.head = allowTerm keyDigest r assigned ∧
            ∀ b ∈ rule.body, Believes (spelling.setting p.openssl policy) none b := by
  have opens : launch.Opens := by
    by_contra closed
    have only := Launch.closed reach closed proc member ⟨.write fd (replyMsg grantS), n⟩
      (by rw [cut]; simp)
    cases only
  rw [Launch.main_eq opens.1] at reach
  have granted : replyMsg grantS = replyMsg (if true then grantS else denyS) := rfl
  rw [granted] at cut
  obtain ⟨x, socket, -⟩ := exists_exchange reach member cut
  refine ⟨opens, ⟨x, socket⟩, ?_⟩
  intro x spelling decided readable l r after request readableOp readableText
  obtain ⟨loaded, ending, isAsked, answered⟩ := x.asked_query reach member cut request
  refine ⟨loaded, ending, isAsked, fun out finished own => ?_⟩
  obtain ⟨t, writes, isText, decides⟩ := x.session.entailed truthful spelling readable readableOp
    readableText own (answered out finished)
  refine ⟨t, writes, isText, fun a answer => ?_⟩
  obtain ⟨assigned, derived⟩ := (decides a answer).mp rfl
  obtain ⟨rule, inPolicy, head, body⟩ := Spelling.allow_by_policy decided derived
  exact ⟨rule, inPolicy, assigned, head, body⟩

/-- `repository 9000 policy`, with the policy that lets alice do everything in the file. -/
def gateLaunch : Launch where
  args := ["repository".toList, "9000".toList, "policy".toList]
  files name := if name = "policy".toList then some gateText else none
  socketId := 3
  bindErr := 0
  listenErr := 0
  leftOver := false

theorem gateLaunch_platform : gateLaunch.platform villagePlatform = villagePlatform := rfl

theorem gateLaunch_policy : gateLaunch.policy = gateText := by decide +kernel

theorem grants_need_a_rule_alice :
    gateLaunch.Opens ∧ ∃ (s : Pool Call Reply Mode World) (proc : Process Call Reply Mode)
      (past : History) (n : Int)
      (x : Exchange (gateLaunch.platform villagePlatform) gateLaunch.policy past),
      (server (gateLaunch.platform villagePlatform) trueXsb).Reachable gateLaunch.main none s ∧
      proc ∈ s.procs ∧ proc.history = past ++ [⟨.write 4 (replyMsg grantS), n⟩] ∧
      x.session.fd = 4 ∧ x.session.admission.credential = userCredential alice [] [] ∧
      x.asked = gateAsked ∧
      ∃ rule ∈ gate, ∃ assigned, rule.head = allowTerm (userDigest alice) viewFile assigned ∧
        ∀ b ∈ rule.body, Believes (aliceSpelling.setting .trusting gate) none b := by
  obtain ⟨s, proc, -, past, -, reach, member, -, asks, -, cut, -⟩ := alice_granted
  have truthful := trueXsb_truthful
  rw [← gateLaunch_policy] at truthful
  have started : gateLaunch.main = startListening gateText true := by
    rw [gateLaunch.main_eq (by decide), gateLaunch_policy]
    rfl
  rw [← started, ← gateLaunch_platform] at reach
  obtain ⟨opens, ⟨x, socket⟩, needs⟩ :=
    grants_need_a_rule (p := villagePlatform) truthful reach member cut
  obtain ⟨credential, request, asked, own⟩ :=
    asks.exchange gateLaunch_platform gateLaunch_policy x
  refine ⟨opens, s, proc, past, 1, x, reach, member, cut, socket, credential, asked, ?_⟩
  obtain ⟨spelling, decided, imports, setting⟩ := alice_spelled credential
  obtain ⟨loaded, ending, isAsked, decides⟩ := needs x spelling decided (imports ▸ gate_readable)
    linesLayout viewFile ['\n'] request viewFile_readable.1 viewFile_readable.2
  rw [show spelling.setting villagePlatform.openssl gate = aliceSpelling.setting .trusting gate from
    setting gate] at decides
  rw [credential] at isAsked decides
  obtain ⟨rfl, rfl⟩ := gate_ending (asked.symm.trans isAsked)
  obtain ⟨t, writes, -, rules⟩ := decides _ rfl (congrArg some own.symm)
  obtain ⟨a, answered⟩ := Option.isSome_iff_exists.mp writes.1
  exact rules a answered

/-- Two replies of a run, to one request of clients with the same key: if keys say in the second
    credential what they say in the first, and XSB answers both queries over the program of the
    session that asks, the second client is granted what the first is. -/
theorem more_said_more_granted {policyText : Str}
    (truthful : Truthful xsb writes builtin policyText policy) {socketInit : Bool} {file : World}
    {s : Pool Call Reply Mode World}
    (reach : (server p xsb).Reachable (startListening policyText socketInit) file s)
    {proc proc' : Process Call Reply Mode} (member : proc ∈ s.procs) (member' : proc' ∈ s.procs)
    {past past' later later' : History} {fd fd' n n' : Int} {granted granted' : Bool}
    (cut : proc.history =
      past ++ ⟨.write fd (replyMsg (if granted then grantS else denyS)), n⟩ :: later)
    (cut' : proc'.history =
      past' ++ ⟨.write fd' (replyMsg (if granted' then grantS else denyS)), n'⟩ :: later') :
    (∃ (x : Exchange p policyText past) (x' : Exchange p policyText past'),
      x.session.fd = fd ∧ x'.session.fd = fd') ∧
    ∀ (x : Exchange p policyText past) (x' : Exchange p policyText past')
      (spelling : Spelling x.session.admission.credential)
      (spelling' : Spelling x'.session.admission.credential),
      (∀ c ∈ spelling'.imports p.openssl, ReadableClause builtin c) →
      spelling.Within p.openssl spelling' →
      getKeyDigest p.openssl x.session.admission.credential.pubKey =
        getKeyDigest p.openssl x'.session.admission.credential.pubKey →
      ∀ (l l' : RequestLayout) (r : Request) (after after' : Str),
      cstr (bytesOf x.reads) = l.message r after → cstr (bytesOf x'.reads) = l'.message r after' →
      r.op.Readable → r.text.Readable →
      ∃ cmd cmd' loaded loaded' ending ending' e e',
        x.asked = [⟨.popen cmd, (loaded, ending)⟩, e] ∧
        x'.asked = [⟨.popen cmd', (loaded', ending')⟩, e'] ∧
        ∀ out out', ending = .finished (some out) → ending' = .finished (some out') →
        loaded = some (binderText x.session.admission.policy x.session.admission.checked) →
        loaded' = some (binderText x'.session.admission.policy x'.session.admission.checked) →
        ∃ t t', writes cmd loaded t ∧ out = t.text ∧ writes cmd' loaded' t' ∧ out' = t'.text ∧
          ∀ a a', t.query = some a → t'.query = some a' → granted = true → granted' = true := by
  constructor
  · obtain ⟨x, socket, -⟩ := exists_exchange reach member cut
    obtain ⟨x', socket', -⟩ := exists_exchange reach member' cut'
    exact ⟨x, x', socket, socket'⟩
  intro x x' spelling spelling' readable' within sameKey l l' r after after' request request'
    readableOp readableText
  have readable : ∀ c ∈ spelling.imports p.openssl, ReadableClause builtin c :=
    fun c inImports => readable' c (within.imports c inImports)
  obtain ⟨loaded, ending, isAsked, answered⟩ := x.asked_query reach member cut request
  obtain ⟨loaded', ending', isAsked', answered'⟩ := x'.asked_query reach member' cut' request'
  refine ⟨_, _, loaded, loaded', ending, ending', _, _, isAsked, isAsked', ?_⟩
  intro out out' finished finished' own own'
  obtain ⟨t, writes, isText, decides⟩ := x.session.entailed truthful spelling readable readableOp
    readableText own (answered out finished)
  obtain ⟨t', writes', isText', decides'⟩ := x'.session.entailed truthful spelling' readable'
    readableOp readableText own' (answered' out' finished')
  refine ⟨t, t', writes, isText, writes', isText', fun a a' answer answer' yes => ?_⟩
  obtain ⟨assigned, derived⟩ := (decides a answer).mp yes
  rw [sameKey] at derived
  exact (decides' a' answer').mpr ⟨assigned, within.derives derived⟩

theorem alice_spelled_twice {c c' : Credential} (same : c = userCredential alice [] [])
    (same' : c' = userCredential alice [] []) :
    ∃ (spelling : Spelling c) (spelling' : Spelling c'), spelling.Within .trusting spelling' ∧
      spelling'.imports .trusting = aliceSpelling.imports .trusting := by
  subst same same'
  exact ⟨aliceSpelling, aliceSpelling, fun cert inCerts g inSaid => ⟨cert, inCerts, rfl, inSaid⟩, rfl⟩

theorem more_said_more_granted_alice :
    ∃ (s : Pool Call Reply Mode World) (proc proc' : Process Call Reply Mode) (past past' : History)
      (n n' : Int) (granted' : Bool) (x : Exchange villagePlatform gateText past)
      (x' : Exchange villagePlatform gateText past'),
      (server villagePlatform trueXsb).Reachable (startListening gateText true) none s ∧
      proc ∈ s.procs ∧ proc' ∈ s.procs ∧
      proc.history = past ++ [⟨.write 4 (replyMsg grantS), n⟩] ∧
      proc'.history = past' ++ [⟨.write 5 (replyMsg (if granted' then grantS else denyS)), n'⟩] ∧
      x.session.fd = 4 ∧ x'.session.fd = 5 ∧ x.asked = gateAsked ∧ x'.asked = gateAsked ∧
      granted' = true := by
  obtain ⟨s, proc, proc', past, past', reach, member, member', asks, asks', cut, cut'⟩ := alice_granted
  have granted : proc.history =
      past ++ ⟨.write 4 (replyMsg (if true then grantS else denyS)), 1⟩ :: [] := cut
  have granted' : proc'.history =
      past' ++ ⟨.write 5 (replyMsg (if true then grantS else denyS)), 1⟩ :: [] := cut'
  obtain ⟨⟨x, x', socket, socket'⟩, more⟩ :=
    more_said_more_granted trueXsb_truthful reach member member' granted granted'
  obtain ⟨credential, request, asked, own⟩ := asks.exchange rfl rfl x
  obtain ⟨credential', request', asked', own'⟩ := asks'.exchange rfl rfl x'
  refine ⟨s, proc, proc', past, past', 1, 1, true, x, x', reach, member, member', cut, cut', socket,
    socket', asked, asked', ?_⟩
  obtain ⟨spelling, spelling', within, imports⟩ := alice_spelled_twice credential credential'
  obtain ⟨cmd, cmd', loaded, loaded', ending, ending', e, e', isAsked, isAsked', grants⟩ :=
    more x x' spelling spelling' (imports ▸ gate_readable) within (by rw [credential, credential'])
      linesLayout linesLayout viewFile ['\n'] ['\n'] request request' viewFile_readable.1
      viewFile_readable.2
  obtain ⟨rfl, rfl⟩ := gate_ending (asked.symm.trans isAsked)
  obtain ⟨rfl, rfl⟩ := gate_ending (asked'.symm.trans isAsked')
  obtain ⟨t, t', writes, -, writes', -, granted⟩ :=
    grants _ _ rfl rfl (congrArg some own.symm) (congrArg some own'.symm)
  obtain ⟨a, answered⟩ := Option.isSome_iff_exists.mp writes.1
  obtain ⟨a', answered'⟩ := Option.isSome_iff_exists.mp writes'.1
  exact granted a a' answered answered' rfl

end RepositoryManager
