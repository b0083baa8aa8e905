import RepositoryManager.Schedules
import RepositoryManager.Statements

/-! # What an imported credential means

The clauses of the program file as a Horn program over ground terms, and the contexts of
the keys behind them. A certificate is a set of clauses in the context of its own key;
the program that is written for a credential derives what these contexts, together with
the policy, let the service believe.
-/

namespace RepositoryManager

open ByteString Grammar Contexts Interaction.Prog

/-! ## Ground instances -/

/-- A term without variables. -/
inductive Term where
  | app (name : Str) (args : List Term)

/-- `says(speaker,a)` -/
def Term.saysThat (speaker a : Term) : Term := .app "says".toList [speaker, a]

theorem Term.saysThat_inj {k k' a a' : Term} (same : Term.saysThat k a = Term.saysThat k' a') :
    k = k' ∧ a = a' := by
  simp only [Term.saysThat, Term.app.injEq, List.cons.injEq, and_true, true_and] at same
  exact same

/-- A word that stands for any term begins with a capital letter or an underscore. -/
def Grammar.Text.isVariable (t : Text) : Bool :=
  match t.chars with
  | c :: _ => c.isUpper || c = '_'
  | [] => false

/-- A word where the variables stand for the terms of an assignment. -/
def Grammar.Text.ground (assigned : Str → Term) (t : Text) : Term :=
  if t.isVariable then assigned t.chars else .app t.chars []

def Grammar.Predicate.ground (assigned : Str → Term) (p : Predicate) : Term :=
  .app p.name.chars ((p.arg :: p.args).map (Text.ground assigned))

def Statement.ground (assigned : Str → Term) : Statement → Term
  | .holds p => p.ground assigned
  | .saysThat speaker s => .saysThat (speaker.ground assigned) (s.ground assigned)

/-- The ground instances of clauses. -/
def instances (cs : List (Horn.Rule Statement)) : Horn.Program Term :=
  {r | ∃ c ∈ cs, ∃ assigned, r = c.map (Statement.ground assigned)}

/-! ## Keys -/

theorem getKeyDigest_textChars (o : OpenSSL) (pKey : Str) :
    ∀ c ∈ getKeyDigest o pKey, isTextChar c = true := by
  have mark : ∀ c ∈ "rsa_".toList, isTextChar c = true := forall_mem_of_all (by decide)
  have hex : ∀ c ∈ "0123456789abcdef".toList, isTextChar c = true :=
    forall_mem_of_all (by decide +kernel)
  intro c member
  exact (getKeyDigest_chars o pKey c member).elim (mark c) (hex c)

/-- The digest of a key, as the word that stands for the key in a program. -/
def keyWord (o : OpenSSL) (pKey : Str) : Text := ⟨getKeyDigest o pKey, getKeyDigest_textChars o pKey⟩

theorem keyWord_ground (o : OpenSSL) (pKey : Str) (assigned : Str → Term) :
    (keyWord o pKey).ground assigned = .app (getKeyDigest o pKey) [] := by
  have notVariable : (keyWord o pKey).isVariable = false := by
    have begins : ∃ rest, (keyWord o pKey).chars = 'r' :: rest := ⟨_, rfl⟩
    obtain ⟨rest, begins⟩ := begins
    have constant : ('r'.isUpper || decide ('r' = '_')) = false := by decide
    rw [Text.isVariable, begins]
    exact constant
  rw [Text.ground, if_neg (by simp [notVariable])]
  rfl

/-! ## The clauses of a credential -/

/-- The clauses that the certificates of a credential are spelled with. A `:-` inside a
    head would be taken for that of the rule. -/
structure Spelling (c : Credential) where
  said : Certificate → List Clause
  texts : ∀ cert ∈ c.certificates, cert.clauses = (said cert).map Clause.text
  clean : ∀ cert ∈ c.certificates, ∀ g ∈ said cert, ¬ [':', '-'] <:+: g.head.text

namespace Spelling

variable (o : OpenSSL) {c : Credential} (spelling : Spelling c)

/-- The clauses of a credential as the service imports them. -/
def imports : List (Horn.Rule Statement) :=
  c.certificates.flatMap fun cert =>
    (spelling.said cert).map (Clause.imported (keyWord o cert.pubKey))

/-- One decision is right for the literals of each clause. -/
def Decided : Prop := ∀ cert ∈ c.certificates, ∀ g ∈ spelling.said cert, DecidedAlike g

/-- The contexts of the keys, and of a service with a policy. -/
def setting (policy : Horn.Program Term) : Setting Str Term where
  speaks k a := .saysThat (.app k []) a
  service := policy
  clauses k := {r | ∃ cert ∈ c.certificates, getKeyDigest o cert.pubKey = k ∧
    ∃ g ∈ spelling.said cert, ∃ assigned, r = g.reading.map (Statement.ground assigned)}

theorem imported_ground (pKey : Str) (assigned : Str → Term) {g : Clause}
    (decided : DecidedAlike g) :
    (g.imported (keyWord o pKey)).map (Statement.ground assigned) =
      (g.reading.map (Statement.ground assigned)).imported
        fun a => .saysThat (.app (getKeyDigest o pKey) []) a := by
  rw [Clause.imported_reading _ decided]
  refine ContextRule.imported_map (fun s => ?_) _
  rw [Statement.ground, keyWord_ground]

theorem setting_program {spelling : Spelling c} (decided : spelling.Decided)
    (policy : Horn.Program Term) :
    (spelling.setting o policy).program = policy ∪ instances (spelling.imports o) := by
  refine congrArg (policy ∪ ·) (Set.ext fun r => ?_)
  constructor
  · rintro ⟨k, _, ⟨cert, inCerts, rfl, g, inSaid, assigned, rfl⟩, rfl⟩
    refine ⟨_, List.mem_flatMap.mpr ⟨cert, inCerts, List.mem_map.mpr ⟨g, inSaid, rfl⟩⟩, assigned, ?_⟩
    exact (imported_ground o cert.pubKey assigned (decided cert inCerts g inSaid)).symm
  · rintro ⟨_, inImports, assigned, rfl⟩
    obtain ⟨cert, inCerts, inClauses⟩ := List.mem_flatMap.mp inImports
    obtain ⟨g, inSaid, rfl⟩ := List.mem_map.mp inClauses
    exact ⟨_, _, ⟨cert, inCerts, rfl, g, inSaid, assigned, rfl⟩,
      imported_ground o cert.pubKey assigned (decided cert inCerts g inSaid)⟩

theorem export_texts (pKey : Str) (gs : List Clause) (clean : ∀ g ∈ gs, ¬ [':', '-'] <:+: g.head.text)
    {lines : List Str} (exported : IsExport (getKeyDigest o pKey) (gs.map Clause.text) lines) :
    lines = gs.map fun g => clauseText (g.imported (keyWord o pKey)) := by
  have transformed : (gs.map Clause.text).map (binderClause (getKeyDigest o pKey)) =
      (gs.map fun g => clauseText (g.imported (keyWord o pKey))).map some := by
    rw [List.map_map, List.map_map]
    exact List.map_congr_left fun g member => binderClause_imported (keyWord o pKey) g (clean g member)
  rw [IsExport, transformed] at exported
  exact List.map_injective_iff.mpr (fun _ _ => Option.some.inj) exported

theorem imports_texts {certs : List Certificate}
    (exported : List.Forall₂ (fun cert cert' : Certificate =>
      IsExport (getKeyDigest o cert.pubKey) cert.clauses cert'.transformedCls) c.certificates certs) :
    certs.flatMap Certificate.transformedCls = (spelling.imports o).map clauseText := by
  have all : ∀ {front certs : List Certificate}, (∀ cert ∈ front, cert ∈ c.certificates) →
      List.Forall₂ (fun cert cert' : Certificate =>
        IsExport (getKeyDigest o cert.pubKey) cert.clauses cert'.transformedCls) front certs →
      certs.flatMap Certificate.transformedCls = (front.flatMap fun cert =>
        (spelling.said cert).map (Clause.imported (keyWord o cert.pubKey))).map clauseText := by
    intro front certs inside pairs
    induction pairs with
    | nil => rfl
    | @cons cert cert' front certs first _ ih =>
        have here := inside cert List.mem_cons_self
        rw [spelling.texts cert here] at first
        have lines := export_texts o cert.pubKey _ (spelling.clean cert here) first
        rw [List.flatMap_cons, List.flatMap_cons, List.map_append, lines,
          ih fun x later => inside x (List.mem_cons_of_mem _ later), List.map_map]
        rfl
  exact all (fun _ member => member) exported

end Spelling

/-! ## Import preserves meaning -/

/-- The program file of an accepted credential holds the texts of its imports. -/
theorem Spelling.written {o : OpenSSL} {clib : CLib} {validate : Bool} {clock : Nat → Int}
    {before ss ss' : SecurityService} {policyText : Str}
    (set : before.setPolicy policyText = some ss) {c : Credential} (fresh : c.Fresh)
    (spelling : Spelling c)
    (verified : verifyCredential o clib validate clock ss (some c) = some (true, ss')) (h : History) :
    Returns (writeBinderFile ss') h true ↔
      h = [⟨.saveBinder (programText policyText ((spelling.imports o).map clauseText)), true⟩] := by
  obtain ⟨before, hasPolicy, sameText⟩ := setPolicy_policy set
  obtain ⟨_, _, policy, c', done, hasPolicy', text, hasCred, -, -, -, exported⟩ :=
    verifyCredential_eq o clib validate clock hasPolicy c
  cases verified.symm.trans done
  have exported := exported_fresh fresh (exported rfl)
  simp only [returns_writeBinderFile, hasPolicy', hasCred, Option.some.injEq, exists_and_left,
    exists_eq_left']
  rw [binderText_eq, text, sameText, spelling.imports_texts o exported]

/-- Whatever the policy means, the program that is written for an accepted credential, whose
    clauses can be decided alike, derives exactly what the service believes when each key has
    its own context. -/
theorem import_preserves_meaning (o : OpenSSL) (clib : CLib) (validate : Bool) (clock : Nat → Int)
    {before ss ss' : SecurityService} {policyText : Str}
    (set : before.setPolicy policyText = some ss) (c : Credential) (fresh : c.Fresh)
    (spelling : Spelling c) (decided : spelling.Decided)
    (verified : verifyCredential o clib validate clock ss (some c) = some (true, ss'))
    (policy : Horn.Program Term) :
    (∀ h, Returns (writeBinderFile ss') h true ↔
      h = [⟨.saveBinder (programText policyText ((spelling.imports o).map clauseText)), true⟩]) ∧
    ∀ a, (Horn.Derives (policy ∪ instances (spelling.imports o)) a ↔
        Believes (spelling.setting o policy) none a) ∧
      ∀ pKey, Horn.Derives (policy ∪ instances (spelling.imports o))
          (.saysThat (.app (getKeyDigest o pKey) []) a) ↔
        Believes (spelling.setting o policy) (some (getKeyDigest o pKey)) a := by
  refine ⟨spelling.written set fresh verified, fun a => ?_⟩
  rw [← Spelling.setting_program o decided policy]
  exact ⟨derives_iff_believes _ a, fun pKey => derives_speaks_iff _ (getKeyDigest o pKey) a⟩

/-- The one clause of alice's credential. -/
def aliceSpelling : Spelling (userCredential alice [] []) where
  said _ := [userClause]
  texts := by
    have isClause : userClause.text = "user(".toList ++ alice ++ ").".toList := by decide +kernel
    intro cert inCerts
    rw [List.mem_singleton.mp inCerts, List.map_singleton, isClause]
  clean := by
    intro cert _ g inSaid
    rw [List.mem_singleton.mp inSaid]
    exact (find_eq_none_iff _ _).mp (by decide +kernel)

theorem userClause_decided : DecidedAlike userClause :=
  ⟨(find_eq_none_iff _ _).mp (by decide +kernel), trivial⟩

theorem aliceSpelling_decided : aliceSpelling.Decided := by
  intro cert inCerts g inSaid
  rw [List.mem_singleton.mp inSaid]
  exact userClause_decided

theorem allow_isText : "allow".toList.all isTextChar = true := by decide

theorem user_isText : "user".toList.all isTextChar = true := by decide

theorem alice_isText : "alice".toList.all isTextChar = true := by decide

/-- `allow(K,Op,File):-says(K,user(alice)).` -/
def gateClause : Horn.Rule Statement :=
  ⟨.holds ⟨.of "allow" allow_isText, .of "K", [.of "Op", .of "File"]⟩,
    [.saysThat (.of "K") (.holds ⟨.of "user" user_isText, .of "alice" alice_isText, []⟩)]⟩

/-- The policy that lets alice do everything. -/
def gate : Horn.Program Term := instances [gateClause]

theorem import_preserves_meaning_alice :
    ∃ ss', (∀ h, Returns (writeBinderFile ss') h true ↔
      h = [⟨.saveBinder (programText [] ((aliceSpelling.imports .trusting).map clauseText)), true⟩]) ∧
    ∀ a, (Horn.Derives (gate ∪ instances (aliceSpelling.imports .trusting)) a ↔
        Believes (aliceSpelling.setting .trusting gate) none a) ∧
      ∀ pKey, Horn.Derives (gate ∪ instances (aliceSpelling.imports .trusting))
          (.saysThat (.app (getKeyDigest .trusting pKey) []) a) ↔
        Believes (aliceSpelling.setting .trusting gate) (some (getKeyDigest .trusting pKey)) a := by
  have set : SecurityService.empty.setPolicy [] =
      some { policyStr := [], policy := some ⟨[], [], [], []⟩, credPtr := none } := rfl
  exact ⟨_, import_preserves_meaning .trusting .epoch false (fun _ => 0) set
    (userCredential alice [] []) (by simp [Credential.Fresh, userCredential]) aliceSpelling
    aliceSpelling_decided alice_known.verified gate⟩

/-! ## Keys that nobody else speaks for -/

/-- No premise of the clause is attributed to anybody. -/
def Grammar.Clause.AsksNobody : Clause → Prop
  | .fact _ => True
  | .rule _ first more => ∀ l ∈ first :: more, l.isSays = false

/-- A clause as it is written. -/
def Grammar.Clause.written : Clause → Horn.Rule Statement
  | .fact head => ⟨head.statement, []⟩
  | .rule head first more => ⟨head.statement, (first :: more).map Literal.statement⟩

theorem Grammar.Clause.written_text (g : Clause) : clauseText g.written = g.text := by
  cases g with
  | fact head =>
      rw [written, clauseText_fact, Literal.statement_text, Clause.text_fact]
  | rule head first more =>
      have sign : ":-".toList = [':', '-'] := by decide
      have texts : ((first :: more).map Literal.statement).map Statement.text =
          (first :: more).map Literal.text := by
        rw [List.map_map]
        exact List.map_congr_left fun l _ => l.statement_text
      rw [written, clauseText_rule _ (by simp), Literal.statement_text, Clause.text_rule, texts, sign,
        bodyText]
      simp

theorem Grammar.Clause.imported_written (speaker : Text) {g : Clause} (decided : DecidedAlike g)
    (own : g.AsksNobody) : g.imported speaker = g.written.map (Statement.saysThat speaker) := by
  rw [imported_reading speaker decided]
  cases g with
  | fact head => rfl
  | rule head first more =>
      rw [reading, ContextRule.imported, written, Horn.Rule.map, List.map_map, List.map_map]
      refine congrArg (Horn.Rule.mk _) (List.map_congr_left fun l member => ?_)
      simp only [Function.comp_apply, Literal.premise, own l member, Bool.false_eq_true, if_false,
        Premise.imported]

namespace Spelling

variable (o : OpenSSL) {c : Credential} (spelling : Spelling c)

/-- The clauses that are signed with keys of a digest, as they are written. -/
def clausesOf (k : Str) : List (Horn.Rule Statement) :=
  c.certificates.flatMap fun cert =>
    if getKeyDigest o cert.pubKey = k then (spelling.said cert).map Clause.written else []

/-- Each clause under this digest can be decided alike, and asks nobody. -/
def Inward (k : Str) : Prop :=
  ∀ cert ∈ c.certificates, getKeyDigest o cert.pubKey = k → ∀ g ∈ spelling.said cert,
    DecidedAlike g ∧ g.AsksNobody

variable {o spelling}

theorem mem_clausesOf {k : Str} {x : Horn.Rule Statement} :
    x ∈ spelling.clausesOf o k ↔ ∃ cert ∈ c.certificates, getKeyDigest o cert.pubKey = k ∧
      ∃ g ∈ spelling.said cert, g.written = x := by
  unfold clausesOf
  rw [List.mem_flatMap]
  refine exists_congr fun cert => and_congr_right fun _ => ?_
  by_cases isKey : getKeyDigest o cert.pubKey = k
  · rw [if_pos isKey, List.mem_map]
    exact (and_iff_right isKey).symm
  · simp [isKey]

theorem imported_own {g : Clause} (decided : DecidedAlike g) (own : g.AsksNobody) (pKey : Str)
    (assigned : Str → Term) :
    (g.imported (keyWord o pKey)).map (Statement.ground assigned) =
      (g.written.map (Statement.ground assigned)).map
        (Term.saysThat (.app (getKeyDigest o pKey) [])) := by
  rw [Clause.imported_written _ decided own, Horn.Rule.map_map, Horn.Rule.map_map]
  refine congrArg (Horn.Rule.map · _) (funext fun s => ?_)
  simp only [Function.comp_apply, Statement.ground, keyWord_ground]

theorem own_imported {k : Str} (inward : spelling.Inward o k) :
    ∀ r ∈ instances (spelling.clausesOf o k),
      r.map (Term.saysThat (.app k [])) ∈ instances (spelling.imports o) := by
  rintro _ ⟨x, inClauses, assigned, rfl⟩
  obtain ⟨cert, inCerts, rfl, g, inSaid, rfl⟩ := mem_clausesOf.mp inClauses
  obtain ⟨decided, own⟩ := inward cert inCerts rfl g inSaid
  refine ⟨_, List.mem_flatMap.mpr ⟨cert, inCerts, List.mem_map_of_mem inSaid⟩, assigned, ?_⟩
  exact (imported_own decided own cert.pubKey assigned).symm

theorem imported_by {r : Horn.Rule Term} (inImports : r ∈ instances (spelling.imports o)) :
    ∃ k, (∃ a, r.head = .saysThat (.app k []) a) ∧ (spelling.Inward o k →
      ∃ r' ∈ instances (spelling.clausesOf o k), r = r'.map (Term.saysThat (.app k []))) := by
  obtain ⟨_, inImports, assigned, rfl⟩ := inImports
  obtain ⟨cert, inCerts, inClauses⟩ := List.mem_flatMap.mp inImports
  obtain ⟨g, inSaid, rfl⟩ := List.mem_map.mp inClauses
  refine ⟨getKeyDigest o cert.pubKey, ⟨g.head.statement.ground assigned, ?_⟩, fun inward => ?_⟩
  · cases g <;> exact congrArg (Term.saysThat · _) (keyWord_ground o cert.pubKey assigned)
  · obtain ⟨decided, own⟩ := inward cert inCerts rfl g inSaid
    exact ⟨_, ⟨g.written, mem_clausesOf.mpr ⟨cert, inCerts, rfl, g, inSaid, rfl⟩, assigned, rfl⟩,
      imported_own decided own cert.pubKey assigned⟩

end Spelling

/-- Where the policy speaks for no key, and the clauses of this key ask nobody, the program
    derives that the key says something exactly when the clauses signed with the key derive it
    by themselves; so nobody else's certificates can change that. Where this holds of all keys,
    the program is worth the policy and what the keys derive each alone. -/
theorem imports_stand_alone (o : OpenSSL) {c : Credential} (spelling : Spelling c)
    (policy : Horn.Program Term) :
    (∀ k, spelling.Inward o k → (∀ r ∈ policy, ∀ a, r.head ≠ .saysThat (.app k []) a) → ∀ a,
      Horn.Derives (policy ∪ instances (spelling.imports o)) (.saysThat (.app k []) a) ↔
        Horn.Derives (instances (spelling.clausesOf o k)) a) ∧
    ((∀ k, spelling.Inward o k ∧ ∀ r ∈ policy, ∀ a, r.head ≠ .saysThat (.app k []) a) → ∀ a,
      Horn.Derives (policy ∪ instances (spelling.imports o)) a ↔
        Horn.Derives (policy ∪ {r | ∃ k b, Horn.Derives (instances (spelling.clausesOf o k)) b ∧
          r = ⟨.saysThat (.app k []) b, []⟩}) a) := by
  constructor
  · intro k inward silent
    refine Horn.derives_image_iff (fun _ _ same => (Term.saysThat_inj same).2)
      (fun r inClauses => .inr (Spelling.own_imported inward r inClauses)) ?_
    rintro r (inPolicy | inImports) a same
    · exact absurd same (silent r inPolicy a)
    · obtain ⟨k', ⟨a', head⟩, own⟩ := Spelling.imported_by inImports
      have isKey : k' = k := (Term.app.inj (Term.saysThat_inj (head.symm.trans same)).1).1
      exact isKey ▸ own (isKey ▸ inward)
  · intro all
    refine Horn.derives_images_iff (f := fun k => Term.saysThat (.app k []))
      (fun same => ?_) (fun r inPolicy k => (all k).2 r inPolicy)
      (fun k => Spelling.own_imported (all k).1) fun r inImports => ?_
    · obtain ⟨keys, statements⟩ := Term.saysThat_inj same
      exact ⟨(Term.app.inj keys).1, statements⟩
    · obtain ⟨k, -, own⟩ := Spelling.imported_by inImports
      exact ⟨k, own (all k).1⟩

theorem gate_silent (k : Str) : ∀ r ∈ gate, ∀ a, r.head ≠ .saysThat (.app k []) a := by
  rintro _ ⟨c, member, assigned, rfl⟩ a same
  rw [List.mem_singleton.mp member] at same
  have name : "allow".toList = "says".toList := (Term.app.inj same).1
  revert name
  decide

/-- `user(alice)` -/
def userAlice : Term := .app "user".toList [.app alice []]

theorem userAlice_derived : Horn.Derives
    (instances (aliceSpelling.clausesOf .trusting (userDigest alice))) userAlice := by
  refine Horn.Derives.rule (r := userClause.written.map (Statement.ground fun x => .app x [])) ?_ ?_
  · refine ⟨_, List.mem_flatMap.mpr ⟨_, List.mem_singleton.mpr rfl, ?_⟩, _, rfl⟩
    change _ ∈ if userDigest alice = userDigest alice then _ else _
    rw [if_pos rfl]
    exact List.mem_singleton.mpr rfl
  · intro b member
    cases member

theorem imports_stand_alone_alice :
    Horn.Derives (gate ∪ instances (aliceSpelling.imports .trusting))
      (.saysThat (.app (userDigest alice) []) userAlice) := by
  refine ((imports_stand_alone .trusting aliceSpelling gate).1 _ ?_ (gate_silent _) _).mpr
    userAlice_derived
  intro cert inCerts _ g inSaid
  refine ⟨aliceSpelling_decided cert inCerts g inSaid, ?_⟩
  rw [List.mem_singleton.mp inSaid]
  trivial

end RepositoryManager
