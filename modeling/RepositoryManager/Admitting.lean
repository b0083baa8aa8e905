import RepositoryManager.SyntaxErrors
import RepositoryManager.SyntaxTree

/-! # The client that is admitted

What a client has to present. A message with the tokens of a credential, in any layout, is
read as this credential; `processMsg` then comes to its end, and admits the client exactly
when every certificate passes, the challenge comes back signed and the program file can be
written.
-/

namespace RepositoryManager

open ByteString Interaction Interaction.Prog Scanner Lexer RecoveringParser

/-- A credential that the grammar derives and the walker can follow. -/
structure Presentable (c : Grammar.Credential) : Prop where
  derived : Parser.Derived c
  someCertificate : c.certificates ≠ []
  noCert : ∀ line ∈ c.key, line.chars ≠ certS
  noMarker : ∀ cert ∈ c.certificates, ∀ clause ∈ cert.clauses,
    clause.tokens.head? ≠ some startTimeS

/-- The visible tokens of the message begin with those of the credential. -/
def Presents (msg : Str) (c : Grammar.Credential) : Prop := ∃ rest, Shows msg (c.shown ++ rest)

/-- What a client is admitted for: each certificate passes at the time that is read for it, the
    bytes that come back sign the challenge, and the program file can be opened. -/
structure Vouched (p : Platform) (im : TransportService) (c : Credential) (curTimes : Nat → Int)
    (conversation : History) : Prop where
  certificates : ∀ j cert, c.certificates[j]? = some cert →
    Passes p.openssl p.clib p.validateCertTime (curTimes j) cert
  response : verifySig p.openssl c.pubKey (cstr (bytesOf conversation))
    (generateChallenge p.prng.rand im.draws).1 = true
  file : ∀ text isOpen, ⟨.saveBinder text, isOpen⟩ ∈ conversation → isOpen = true

/-- With enough fuel `processMsg` comes to its end on the credential `c`, and admits exactly the
    client that is vouched for. -/
def DecidedOn (p : Platform) (im : TransportService) (c : Grammar.Credential) : Prop :=
  ∃ enough, ∀ lexFuel walkFuel, enough ≤ lexFuel → c.children.length < walkFuel →
    (∀ h k, ¬ Steps (processMsg (p.generated lexFuel walkFuel) im) h (.call .abort k)) ∧
    ∀ h im', Returns (processMsg (p.generated lexFuel walkFuel) im) h im' →
      ∃ clock curTimes conversation,
        let read := AstWalker.recovered p.clib.mktime (p.clib.gmtime (clock 0)) c
        h = ⟨.time, clock⟩ :: ⟨.note (.built im.socketMsg read), ()⟩ :: ⟨.time, curTimes⟩ ::
          conversation ∧
        (im'.processingRequests = true ↔ Vouched p im read curTimes conversation)

/-! ## The message is read -/

namespace AstWalker

theorem makeCredential_presented {c : Grammar.Credential} (presentable : Presentable c) {t : Tree}
    (children : t.children = c.children) {fuel : Nat} (enough : c.children.length < fuel) :
    ∃ w, makeCredential t fuel .empty (start t) =
      some ({ pubKey := pem pkHeaderS c.key pkEndS, keyDigest := [],
              certificates := c.certificates.map walked }, w) := by
  obtain ⟨rest, body, here⟩ := start_key presentable.someCertificate children
  have size := congrArg List.length (children.symm.trans here)
  rw [← body] at size
  simp only [List.length_cons, List.length_append, List.length_map, List.length_nil] at size
  obtain ⟨fuel, rfl⟩ : ∃ f, fuel = f + 1 := ⟨fuel - 1, by omega⟩
  obtain ⟨w, key, goesOn, left⟩ := makeCredential_key (keyLines_ne_certS presentable.noCert) fuel
    (by simp only [List.length_append, List.length_map, List.length_singleton]; omega) here
  obtain ⟨w', certificates, -⟩ := makeCredential_certificates c.certificates presentable.noMarker
    fuel _ w goesOn (by omega) (left.trans body.symm)
  refine ⟨w', (key.trans certificates).trans ?_⟩
  simp [Credential.empty, pem_eq]

end AstWalker

/-- Printing, lexing, parsing and walking are inverse, in whatever layout. -/
theorem presented_read (p : Platform) {msg : Str} {c : Grammar.Credential}
    (presentable : Presentable c) (presents : Presents msg c) :
    ∃ enough, ∀ lexFuel walkFuel, enough ≤ lexFuel → c.children.length < walkFuel →
      ∃ tree, (p.generated lexFuel walkFuel).antlr msg = some tree ∧ ∀ mktime now,
        AstWalker.getCredential tree mktime now walkFuel =
          some (some (AstWalker.recovered mktime now c)) := by
  obtain ⟨rest, events, lexed, visible⟩ := presents
  refine ⟨events.length + 1, fun lexFuel walkFuel enough walks => ?_⟩
  have filled : fillBuffer lexFuel msg = some events := scan_of_scans_le lexed enough
  refine ⟨{ text := credentialS, children := c.children }, ?_, fun mktime now => ?_⟩
  · simp only [Platform.generated, filled, Option.map_some, visible,
      parse_shown presentable.derived]
  · obtain ⟨w, made⟩ := AstWalker.makeCredential_presented presentable
      (t := { text := credentialS, children := c.children }) rfl walks
    rw [AstWalker.getCredential_made rfl made]
    simp [Credential.finalize, AstWalker.recovered, Function.comp_def,
      AstWalker.setCertificateStr_walked]

/-! ## The process survives -/

/-- The process does not end inside the method. -/
def Survives {α : Type} (prog : Server α) : Prop := prog.Asks (· ≠ .abort)

theorem receive_survives (fd : Int) (mark msgBuff : Str) : Survives (receive fd mark msgBuff) := by
  fun_induction receive fd mark msgBuff with
  | case1 msgBuff ih =>
      refine ⟨by simp, fun r => ?_⟩
      cases r with
      | none => trivial
      | some bytes =>
          dsimp only
          split
          · next more => exact ih bytes more
          · trivial

section Admission

variable {p : Platform} {im im' : TransportService} {h : History}

theorem authenticateClient_survives (c : Credential) : Survives (authenticateClient p im c) := by
  rw [authenticateClient_eq]
  refine ⟨by simp, fun _ => ⟨by simp, fun _ => ?_⟩⟩
  exact (receive_survives _ _ _).bind fun _ => ⟨by simp, fun _ => trivial⟩

theorem writeBinderFile_survives {ss : SecurityService} {policy : Policy} {checked : Credential}
    (hasPolicy : ss.policy = some policy) (hasCredential : ss.credPtr = some checked) :
    Survives (writeBinderFile ss) := by
  rw [writeBinderFile, hasCredential, hasPolicy]
  exact ⟨by simp, fun _ => trivial⟩

theorem admitClient_survives (c : Credential) {policy : Policy} {checked : Credential}
    (hasPolicy : im.ss.policy = some policy) (hasCredential : im.ss.credPtr = some checked) :
    Survives (admitClient p im c) := by
  refine (authenticateClient_survives c).bind_returns ?_
  rintro ⟨b, im'⟩ h run
  obtain ⟨-, -, -, -, rfl, -⟩ := returns_authenticateClient run
  cases b with
  | false => exact ⟨by simp, fun _ => trivial⟩
  | true =>
      exact (writeBinderFile_survives hasPolicy hasCredential).bind fun _ => ⟨by simp, fun _ => trivial⟩

/-! ## The verdict -/

theorem bytesOf_append (h h' : History) : bytesOf (h ++ h') = bytesOf h ++ bytesOf h' := by
  induction h with
  | nil => rfl
  | cons e h ih =>
      obtain ⟨c, r⟩ := e
      cases c with
      | read fd len =>
          cases r with
          | none => exact ih
          | some bytes => rw [List.cons_append, bytesOf, bytesOf, ih, List.append_assoc]
      | _ => exact ih

theorem returns_admitClient {c : Credential} {policy : Policy} {checked : Credential}
    (hasPolicy : im.ss.policy = some policy) (hasCredential : im.ss.credPtr = some checked)
    (run : Returns (admitClient p im c) h im') :
    ∃ challenges b decides, (∀ e ∈ challenges, ∀ text isOpen, e ≠ ⟨.saveBinder text, isOpen⟩) ∧
      h = challenges ++ decides ∧
      b = verifySig p.openssl c.pubKey (cstr (bytesOf challenges))
        (generateChallenge p.prng.rand im.draws).1 ∧
      (b = false ∧ decides = [⟨.close im.clientSocketId, ()⟩] ∧
          im'.processingRequests = im.processingRequests ∨
        ∃ isOpen, b = true ∧ decides = [⟨.saveBinder (binderText policy checked), isOpen⟩,
          ⟨.note (.binderWritten isOpen), ()⟩] ∧
          im'.processingRequests = (isOpen || im.processingRequests)) := by
  obtain ⟨⟨b, im₁⟩, challenges, decides, rfl, authenticates, follows⟩ := returns_bind.mp run
  obtain ⟨n, reads, isRead, signed, rfl, rfl⟩ := returns_authenticateClient authenticates
  refine ⟨_, b, decides, ?_, rfl, ?_, ?_⟩
  · intro e member text isOpen
    simp only [List.cons_append, List.nil_append, List.mem_cons, List.mem_append,
      List.not_mem_nil, or_false] at member
    rcases member with rfl | rfl | read | rfl
    · simp
    · simp
    · obtain ⟨r, rfl⟩ := isRead e read
      simp
    · simp
  · rw [signed]
    simp [bytesOf_append, bytesOf]
  · cases b with
    | false =>
        obtain ⟨_, _, rfl, done⟩ := returns_call.mp follows
        obtain ⟨rfl, rfl⟩ := returns_ret.mp done
        exact .inl ⟨rfl, rfl, rfl⟩
    | true =>
        obtain ⟨written, h₃, h₄, rfl, writes, done⟩ := returns_bind.mp follows
        simp only [writeBinderFile, hasPolicy, hasCredential] at writes
        obtain ⟨isOpen, _, rfl, last⟩ := returns_call.mp writes
        obtain ⟨rfl, rfl⟩ := returns_ret.mp last
        obtain ⟨_, _, rfl, last⟩ := returns_call.mp done
        obtain ⟨rfl, rfl⟩ := returns_ret.mp last
        refine .inr ⟨written, rfl, rfl, ?_⟩
        cases written <;> rfl

theorem admitClient_iff {c : Credential} (run : Returns (admitClient p im c) h im')
    (off : im.processingRequests = false) {policy : Policy} {checked : Credential}
    (hasPolicy : im.ss.policy = some policy) (hasCredential : im.ss.credPtr = some checked) :
    im'.processingRequests = true ↔
      verifySig p.openssl c.pubKey (cstr (bytesOf h)) (generateChallenge p.prng.rand im.draws).1 =
        true ∧
      ∀ text isOpen, ⟨.saveBinder text, isOpen⟩ ∈ h → isOpen = true := by
  obtain ⟨challenges, b, decides, noSave, rfl, signed, ⟨bad, rfl, on⟩ | ⟨isOpen, good, rfl, on⟩⟩ :=
    returns_admitClient hasPolicy hasCredential run
  · have noRead : bytesOf [⟨.close im.clientSocketId, ()⟩] = [] := rfl
    rw [on, off, bytesOf_append, noRead, List.append_nil, ← signed, bad]
    exact iff_of_false Bool.false_ne_true fun admitted => Bool.false_ne_true admitted.1
  · have noRead : bytesOf [⟨.saveBinder (binderText policy checked), isOpen⟩,
      ⟨.note (.binderWritten isOpen), ()⟩] = [] := rfl
    rw [on, off, Bool.or_false, bytesOf_append, noRead, List.append_nil, ← signed]
    refine ⟨fun opened => ⟨good, fun text other member => ?_⟩, fun admitted => ?_⟩
    · rcases List.mem_append.mp member with before | last
      · exact absurd rfl (noSave _ before text other)
      · rcases List.mem_cons.mp last with same | noted
        · cases same
          exact opened
        · cases List.mem_singleton.mp noted
    · exact admitted.2 _ isOpen (List.mem_append_right _ List.mem_cons_self)

theorem processMsg_read {tree : Tree} {c : (Nat → Int) → Credential} (nonempty : im.socketMsg ≠ [])
    (parsed : p.antlr im.socketMsg = some tree)
    (read : ∀ clock : Nat → Int, AstWalker.getCredential tree p.clib.mktime (p.clib.gmtime (clock 0))
      p.walkFuel = some (some (c clock))) :
    processMsg p im = .call .time fun clock =>
      .call (.note (.built im.socketMsg (c clock))) fun _ => checkClient p im (c clock) := by
  simp only [processMsg, nonempty, if_false, parsed, read, perform_bind, buildClient]
  rfl

theorem decideClient_verdict {trusting : SecurityService}
    (trusts : im.ss.setPolicy im.policy = some trusting) (c : Credential) (curTimes : Nat → Int) :
    ∃ verified ss policy checked, ss.policy = some policy ∧ ss.credPtr = some checked ∧
      decideClient p im c (im.ss.setPolicy im.policy >>= fun ss =>
        verifyCredential p.openssl p.clib p.validateCertTime curTimes ss (some c)) =
        decideClient p im c (some (verified, ss)) ∧
      (verified = true ↔ ∀ j cert, c.certificates[j]? = some cert →
        Passes p.openssl p.clib p.validateCertTime (curTimes j) cert) := by
  obtain ⟨policy, set, -⟩ := setPolicy_policy trusts
  obtain ⟨verified, ss, policy', checked, done, hasPolicy, -, hasCredential, -, -, passes, -⟩ :=
    @verifyCredential_eq p.openssl p.clib p.validateCertTime curTimes _ _ set c
  refine ⟨verified, ss, policy', checked, hasPolicy, hasCredential, ?_, passes⟩
  rw [trusts, Option.bind_eq_bind, Option.bind_some, done]

theorem checkClient_survives (loads : (im.ss.setPolicy im.policy).isSome) (c : Credential) :
    Survives (checkClient p im c) := by
  obtain ⟨trusting, trusts⟩ := Option.isSome_iff_exists.mp loads
  refine ⟨nofun, fun curTimes => ?_⟩
  obtain ⟨verified, ss, policy, checked, hasPolicy, hasCredential, same, -⟩ :=
    @decideClient_verdict p im trusting trusts c curTimes
  change Survives (decideClient p im c (im.ss.setPolicy im.policy >>= fun ss =>
    verifyCredential p.openssl p.clib p.validateCertTime curTimes ss (some c)))
  rw [same]
  refine ⟨nofun, fun _ => ?_⟩
  cases verified with
  | false => exact ⟨nofun, fun _ => trivial⟩
  | true => exact @admitClient_survives p { im with ss } c _ _ hasPolicy hasCredential

theorem checkClient_iff {c : Credential} (run : Returns (checkClient p im c) h im')
    (loads : (im.ss.setPolicy im.policy).isSome) (off : im.processingRequests = false) :
    ∃ curTimes conversation, h = ⟨.time, curTimes⟩ :: conversation ∧
      (im'.processingRequests = true ↔ Vouched p im c curTimes conversation) := by
  obtain ⟨trusting, trusts⟩ := Option.isSome_iff_exists.mp loads
  obtain ⟨curTimes, conversation, rfl, decides⟩ := returns_call.mp run
  obtain ⟨verified, ss, policy, checked, hasPolicy, hasCredential, same, passes⟩ :=
    @decideClient_verdict p im trusting trusts c curTimes
  refine ⟨curTimes, conversation, rfl, ?_⟩
  have decides : Returns (decideClient p im c (some (verified, ss))) conversation im' :=
    same ▸ decides
  obtain ⟨_, h₁, rfl, follows⟩ := returns_call.mp decides
  cases verified with
  | false =>
      obtain ⟨_, _, -, done⟩ := returns_call.mp follows
      obtain ⟨-, rfl⟩ := returns_ret.mp done
      rw [off]
      exact iff_of_false Bool.false_ne_true fun vouched =>
        Bool.false_ne_true (passes.mpr vouched.certificates)
  | true =>
      rw [@admitClient_iff p { im with ss } im' h₁ c follows off _ _ hasPolicy hasCredential]
      have notSave : ∀ text isOpen, (⟨.saveBinder text, isOpen⟩ : Interaction.Event Call Reply) ≠
          ⟨.note (.verified c (ss.credPtr.getD c) true), ()⟩ := nofun
      constructor
      · rintro ⟨response, file⟩
        refine ⟨passes.mp rfl, response, fun text isOpen member => ?_⟩
        exact file text isOpen ((List.mem_cons.mp member).resolve_left (notSave text isOpen))
      · intro vouched
        exact ⟨vouched.response, fun text isOpen member =>
          vouched.file text isOpen (List.mem_cons_of_mem _ member)⟩

end Admission

/-- A client that presents a credential is decided on, whatever the replies are. -/
theorem presented_admitted_iff (p : Platform) {im : TransportService} {c : Grammar.Credential}
    (presentable : Presentable c) (presents : Presents im.socketMsg c)
    (loads : (im.ss.setPolicy im.policy).isSome) (off : im.processingRequests = false) :
    DecidedOn p im c := by
  obtain ⟨enough, reads⟩ := presented_read p presentable presents
  refine ⟨enough, fun lexFuel walkFuel lexes walks => ?_⟩
  obtain ⟨tree, parsed, read⟩ := reads lexFuel walkFuel lexes walks
  have nonempty : im.socketMsg ≠ [] := by
    intro empty
    obtain ⟨rest, shown⟩ := presents
    rw [empty, shows_nil] at shown
    simp [Grammar.Credential.shown] at shown
  rw [processMsg_read nonempty parsed fun clock => read _ _]
  constructor
  · intro h k run
    refine run.asks (P := (· ≠ .abort)) ?_ rfl
    exact ⟨by simp, fun clock => ⟨by simp, fun _ => checkClient_survives loads _⟩⟩
  · intro h im' run
    obtain ⟨clock, h₁, rfl, builds⟩ := returns_call.mp run
    obtain ⟨_, h₂, rfl, checks⟩ := returns_call.mp builds
    obtain ⟨curTimes, conversation, rfl, admitted⟩ := checkClient_iff checks loads off
    refine ⟨clock, curTimes, conversation, rfl, admitted.trans ?_⟩
    exact ⟨fun vouched => ⟨vouched.certificates, vouched.response, vouched.file⟩,
      fun vouched => ⟨vouched.certificates, vouched.response, vouched.file⟩⟩

theorem bob_presentable : Presentable AstWalker.bobCredential where
  derived := ⟨List.cons_ne_nil _ _, by decide⟩
  someCertificate := List.cons_ne_nil _ _
  noCert := by decide
  noMarker := by decide

theorem bob_presents : Presents (print AstWalker.bobCredential.shown) AstWalker.bobCredential := by
  refine ⟨[], ?_⟩
  rw [List.append_nil]
  exact bob_shown

theorem presented_admitted_iff_bob :
    DecidedOn villagePlatform (childImage [] 7 (print AstWalker.bobCredential.shown))
      AstWalker.bobCredential := by
  have message : (childImage [] 7 (print AstWalker.bobCredential.shown)).socketMsg =
      print AstWalker.bobCredential.shown := cstr_of_clean (by decide +kernel)
  refine presented_admitted_iff villagePlatform bob_presentable ?_ rfl rfl
  rw [message]
  exact bob_presents

end RepositoryManager
