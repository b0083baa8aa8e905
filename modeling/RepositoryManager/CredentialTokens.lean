import RepositoryManager.Lexer

/-! # The tokens of a credential

The tokens that a credential derives from the rule `credential`, with their types. Their
texts are the token texts of `Grammar`.
-/

namespace RepositoryManager.Grammar

open ByteString Lexer

/-- A token whose rule is one literal. -/
def word (type : TokenType) : Token := .shown type (literal type)

def Text.token (t : Text) : Token := .shown .text t.chars

def Num.token (n : Num) : Token := .shown .num n.chars

def Predicate.shown (p : Predicate) : List Token :=
  [p.name.token, word .openParen, p.arg.token] ++
    p.args.flatMap (fun a => [word .comma, a.token]) ++ [word .closeParen]

def Literal.shown : Literal → List Token
  | .predicate p => p.shown
  | .saysThat speaker p =>
      [word .saysWord, word .openParen, speaker.token, word .comma] ++ p.shown ++ [word .closeParen]

def Clause.shown : Clause → List Token
  | .fact head => head.shown ++ [word .stop]
  | .rule head first more =>
      head.shown ++ [word .implies] ++ first.shown ++
        more.flatMap (fun l => word .comma :: l.shown) ++ [word .stop]

def TimeTuple.shown (t : TimeTuple) : List Token :=
  [word .datime, word .openParen, t.year.token, word .comma, t.month.token, word .comma,
    t.day.token, word .comma, t.hour.token, word .comma, t.minute.token, word .comma,
    t.second.token, word .closeParen, word .stop]

def publicKeyShown (key : List Text) : List Token :=
  word .publicKeyHeader :: key.map Text.token ++ [word .publicKeyEnd]

def signatureShown (signature : List Text) : List Token :=
  word .signatureHeader :: signature.map Text.token ++ [word .signatureEnd]

def validityShown (start stop : TimeTuple) : List Token :=
  [word .validityHeader, word .notBefore] ++ start.shown ++ [word .notAfter] ++ stop.shown ++
    [word .validityEnd]

def Certificate.shown (c : Certificate) : List Token :=
  [word .certHeader] ++ c.clauses.flatMap Clause.shown ++ validityShown c.start c.stop ++
    publicKeyShown c.key ++ signatureShown c.signature ++ [word .certEnd]

/-- `CREDENTIAL_HEADER public_key certificate* CREDENTIAL_END` -/
def Credential.shown (c : Credential) : List Token :=
  [word .credentialHeader] ++ publicKeyShown c.key ++ c.certificates.flatMap Certificate.shown ++
    [word .credentialEnd]

/-! ### The tokens that carry text -/

def TimeTuple.nums (t : TimeTuple) : List Num :=
  [t.year, t.month, t.day, t.hour, t.minute, t.second]

def Certificate.texts (c : Certificate) : List Text :=
  c.clauses.flatMap Clause.texts ++ c.key ++ c.signature

def Credential.texts (c : Credential) : List Text :=
  c.key ++ c.certificates.flatMap Certificate.texts

def Credential.nums (c : Credential) : List Num :=
  c.certificates.flatMap fun cert => cert.start.nums ++ cert.stop.nums

section

/-! What holds of every literal holds of all tokens of a derivation if it holds of its texts
and numbers. -/

variable {P : Token → Prop} (words : ∀ type, type ∉ [.ws, .num, .text] → P (word type))
include words

theorem Predicate.forall_shown (p : Predicate) :
    (∀ t ∈ p.shown, P t) ↔ ∀ t ∈ p.texts, P t.token := by
  simp only [Predicate.shown, Predicate.texts, List.forall_mem_append, List.forall_mem_cons,
    List.forall_mem_flatMap, List.not_mem_nil, false_implies, implies_true, and_true,
    words .openParen (by decide), words .comma (by decide), words .closeParen (by decide),
    true_and, and_assoc]

theorem Literal.forall_shown (l : Literal) :
    (∀ t ∈ l.shown, P t) ↔ ∀ t ∈ l.texts, P t.token := by
  cases l with
  | predicate p => exact p.forall_shown words
  | saysThat speaker p =>
      simp only [Literal.shown, Literal.texts, List.forall_mem_append, List.forall_mem_cons,
        List.not_mem_nil, false_implies, implies_true, and_true, p.forall_shown words,
        words .saysWord (by decide), words .openParen (by decide), words .comma (by decide),
        words .closeParen (by decide), true_and]

theorem Clause.forall_shown (c : Clause) :
    (∀ t ∈ c.shown, P t) ↔ ∀ t ∈ c.texts, P t.token := by
  have stop := words .stop (by decide)
  cases c with
  | fact head =>
      simp only [Clause.shown, Clause.texts, List.forall_mem_append, List.forall_mem_cons,
        List.not_mem_nil, false_implies, implies_true, and_true, head.forall_shown words, stop]
  | rule head first more =>
      simp only [Clause.shown, Clause.texts, List.forall_mem_append, List.forall_mem_cons,
        List.forall_mem_flatMap, List.not_mem_nil, false_implies, implies_true, and_true,
        Literal.forall_shown words, words .implies (by decide), words .comma (by decide), stop,
        true_and]

theorem TimeTuple.forall_shown (t : TimeTuple) :
    (∀ u ∈ t.shown, P u) ↔ ∀ n ∈ t.nums, P n.token := by
  simp only [TimeTuple.shown, TimeTuple.nums, List.forall_mem_cons, List.not_mem_nil,
    false_implies, implies_true, and_true, words .datime (by decide),
    words .openParen (by decide), words .comma (by decide), words .closeParen (by decide),
    words .stop (by decide), true_and]

theorem publicKey_forall_shown (key : List Text) :
    (∀ t ∈ publicKeyShown key, P t) ↔ ∀ t ∈ key, P t.token := by
  simp only [publicKeyShown, List.forall_mem_append, List.forall_mem_cons, List.forall_mem_map,
    List.not_mem_nil, false_implies, implies_true, and_true, words .publicKeyHeader (by decide),
    words .publicKeyEnd (by decide), true_and]

theorem signature_forall_shown (signature : List Text) :
    (∀ t ∈ signatureShown signature, P t) ↔ ∀ t ∈ signature, P t.token := by
  simp only [signatureShown, List.forall_mem_append, List.forall_mem_cons, List.forall_mem_map,
    List.not_mem_nil, false_implies, implies_true, and_true, words .signatureHeader (by decide),
    words .signatureEnd (by decide), true_and]

theorem validity_forall_shown (start stop : TimeTuple) :
    (∀ t ∈ validityShown start stop, P t) ↔ ∀ n ∈ start.nums ++ stop.nums, P n.token := by
  simp only [validityShown, List.forall_mem_append, List.forall_mem_cons, List.not_mem_nil,
    false_implies, implies_true, and_true, TimeTuple.forall_shown words,
    words .validityHeader (by decide), words .notBefore (by decide), words .notAfter (by decide),
    words .validityEnd (by decide), true_and]

theorem Certificate.forall_shown (c : Certificate) :
    (∀ t ∈ c.shown, P t) ↔
      (∀ t ∈ c.texts, P t.token) ∧ ∀ n ∈ c.start.nums ++ c.stop.nums, P n.token := by
  simp only [Certificate.shown, Certificate.texts, List.forall_mem_append (p := P),
    List.forall_mem_flatMap, List.forall_mem_cons, List.not_mem_nil, false_implies, implies_true,
    and_true, Clause.forall_shown words, validity_forall_shown words,
    publicKey_forall_shown words, signature_forall_shown words, words .certHeader (by decide),
    words .certEnd (by decide), true_and]
  rw [List.forall_mem_append, List.forall_mem_append, List.forall_mem_append,
    List.forall_mem_flatMap]
  exact ⟨fun ⟨⟨⟨clauses, nums⟩, key⟩, signature⟩ => ⟨⟨⟨clauses, key⟩, signature⟩, nums⟩,
    fun ⟨⟨⟨clauses, key⟩, signature⟩, nums⟩ => ⟨⟨⟨clauses, nums⟩, key⟩, signature⟩⟩

theorem Credential.forall_shown (c : Credential) :
    (∀ t ∈ c.shown, P t) ↔ (∀ t ∈ c.texts, P t.token) ∧ ∀ n ∈ c.nums, P n.token := by
  simp only [Credential.shown, Credential.texts, Credential.nums, List.forall_mem_append (p := P),
    List.forall_mem_flatMap, List.forall_mem_cons, List.not_mem_nil, false_implies, implies_true,
    and_true, Certificate.forall_shown words, publicKey_forall_shown words,
    words .credentialHeader (by decide), words .credentialEnd (by decide), true_and]
  rw [List.forall_mem_append, List.forall_mem_flatMap]
  constructor
  · rintro ⟨key, each⟩
    exact ⟨⟨key, fun cert member => (each cert member).1⟩, fun cert member => (each cert member).2⟩
  · rintro ⟨⟨key, texts⟩, nums⟩
    exact ⟨key, fun cert member => ⟨texts cert member, nums cert member⟩⟩

end

end RepositoryManager.Grammar
