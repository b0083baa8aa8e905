import RepositoryManager.CredentialTokens

/-! # The parser

`RepositoryManagerParser.c`, generated from `RepositoryManager.g`: the rules below
`credential`, over the types of the tokens on the default channel. A rule answers
with the tokens after it, or with `none` at its first syntax error; what the error
recovery does after that is left out, and so is the tree that is built.
-/

namespace RepositoryManager.Parser

open Lexer

/-- The numbers of the token types in the generated headers. -/
def typeCode : TokenType → Int
  | .certEnd => 5
  | .certHeader => 6
  | .challengeEnd => 7
  | .challengeHeader => 8
  | .credentialEnd => 11
  | .credentialHeader => 12
  | .notAfter => 16
  | .notBefore => 17
  | .num => 18
  | .publicKeyEnd => 20
  | .publicKeyHeader => 21
  | .replyEnd => 22
  | .replyHeader => 23
  | .requestEnd => 24
  | .requestHeader => 25
  | .responseEnd => 26
  | .responseHeader => 27
  | .signatureEnd => 29
  | .signatureHeader => 30
  | .text => 33
  | .validityEnd => 35
  | .validityHeader => 36
  | .ws => 38
  | .openParen => 39
  | .closeParen => 40
  | .comma => 41
  | .stop => 42
  | .implies => 43
  | .datime => 44
  | .request => 45
  | .saysWord => 46

/-! ## Decision 4: which alternative of `clause` -/

def dfa4Min : List Int :=
  [33, 39, 39, 33, 33, 40, 41, 33, 42, 33, 40, -1, -1, 39, 33, 40, 33, 40, 40, 42]

def dfa4Max : List Int :=
  [46, 39, 39, 33, 33, 41, 41, 33, 43, 33, 41, -1, -1, 39, 33, 41, 33, 40, 41, 43]

def dfa4Accept : List Int :=
  [-1, -1, -1, -1, -1, -1, -1, -1, -1, -1, -1, 1, 2, -1, -1, -1, -1, -1, -1, -1]

/-- `dfa4_eot`, `dfa4_eof` and `dfa4_special`, which are alike. -/
def dfa4None : List Int :=
  [-1, -1, -1, -1, -1, -1, -1, -1, -1, -1, -1, -1, -1, -1, -1, -1, -1, -1, -1, -1]

/-- `dfa4_T0` to `dfa4_T14` -/
def dfa4Rows : List (List Int) :=
  [[17, 16], [8, 7], [13], [9], [1, -1, -1, -1, -1, -1, -1, -1, -1, -1, -1, -1, -1, 2], [11, 12],
   [14], [3], [15], [5], [4], [19], [6], [18], [10]]

/-- `dfa4_transitions`, each row by its number. -/
def dfa4Transitions : List (Option Nat) :=
  [some 4, some 7, some 10, some 9, some 12, some 1, some 3, some 14, some 5, some 2, some 1,
   none, none, some 6, some 8, some 0, some 13, some 11, some 0, some 5]

def cdfa4 : CyclicDfa :=
  { eot := dfa4None
    eof := dfa4None
    min := dfa4Min
    max := dfa4Max
    accept := dfa4Accept
    special := dfa4None
    transition := dfa4Transitions.map (·.map (dfa4Rows.getD · [])) }

/-! ## The rules -/

abbrev Rule := List TokenType → Option (List TokenType)

/-- `match`, without its recovery. -/
def matchType (type : TokenType) : Rule
  | t :: ts => if t = type then some ts else none
  | [] => none

/-- The elements of an alternative, one after the other. -/
def sequence : List Rule → Rule
  | [], ts => some ts
  | r :: rs, ts => (r ts).bind (sequence rs)

def text : Rule := matchType .text

def num : Rule := matchType .num

/-- The loop of `base64`; `some_read` is `cnt7 >= 1`. -/
def textLoop (some_read : Bool) : Rule
  | .text :: ts => textLoop true ts
  | ts => if some_read then some ts else none

/-- `text+` -/
def base64 : Rule := textLoop false

def publicKey : Rule := sequence [matchType .publicKeyHeader, base64, matchType .publicKeyEnd]

def signature : Rule := sequence [matchType .signatureHeader, base64, matchType .signatureEnd]

def timeTuple : Rule :=
  sequence [matchType .datime, matchType .openParen, num, matchType .comma, num, matchType .comma,
    num, matchType .comma, num, matchType .comma, num, matchType .comma, num,
    matchType .closeParen, matchType .stop]

def validity : Rule :=
  sequence [matchType .validityHeader, matchType .notBefore, timeTuple, matchType .notAfter,
    timeTuple, matchType .validityEnd]

/-- `(',' text)*` -/
def argLoop : Rule
  | .comma :: .text :: ts => argLoop ts
  | .comma :: _ => none
  | ts => some ts

def predicate : Rule :=
  sequence [text, matchType .openParen, text, argLoop, matchType .closeParen]

def literal : Rule
  | .text :: ts => predicate (.text :: ts)
  | .saysWord :: ts =>
      sequence [matchType .saysWord, matchType .openParen, text, matchType .comma, predicate,
        matchType .closeParen] (.saysWord :: ts)
  | _ => none

/-- `(',' literal)*`, for at most `fuel` passes. Every pass takes a comma. -/
def literalLoop : Nat → Rule
  | 0, _ => none
  | fuel + 1, .comma :: ts => (literal ts).bind (literalLoop fuel)
  | _ + 1, ts => some ts

def moreLiterals : Rule := fun ts => literalLoop (ts.length + 1) ts

def clause : Rule := fun ts =>
  match cdfa4.predict typeCode ts with
  | .alt 1 => sequence [literal, matchType .stop] ts
  | .alt 2 =>
      sequence [literal, matchType .implies, literal, moreLiterals, matchType .stop] ts
  | _ => none

/-- `clause+`, for at most `fuel` passes; `some_read` is `cnt2 >= 1`. -/
def clauseLoop : Nat → Bool → Rule
  | 0, _, _ => none
  | fuel + 1, some_read, ts =>
      if ts.head? = some .text ∨ ts.head? = some .saysWord then
        (clause ts).bind (clauseLoop fuel true)
      else if some_read then some ts else none

def clauses : Rule := fun ts => clauseLoop (ts.length + 1) false ts

def certificate : Rule :=
  sequence [matchType .certHeader, clauses, validity, publicKey, signature, matchType .certEnd]

/-- `certificate*`, for at most `fuel` passes. -/
def certificateLoop : Nat → Rule
  | 0, _ => none
  | fuel + 1, ts =>
      if ts.head? = some .certHeader then (certificate ts).bind (certificateLoop fuel)
      else some ts

def certificates : Rule := fun ts => certificateLoop (ts.length + 1) ts

def credential : Rule :=
  sequence [matchType .credentialHeader, publicKey, certificates, matchType .credentialEnd]

/-! ## The rules accept what the grammar derives -/

section

open Grammar

variable {rest : List TokenType}

def typesOf (ts : List Token) : List TokenType := ts.map Token.type

theorem typesOf_cons (t : Token) (ts : List Token) : typesOf (t :: ts) = t.type :: typesOf ts := rfl

theorem typesOf_append (ts us : List Token) : typesOf (ts ++ us) = typesOf ts ++ typesOf us :=
  List.map_append

@[simp] theorem matchType_self (type : TokenType) : matchType type (type :: rest) = some rest := by
  rw [matchType, if_pos rfl]

theorem sequence_cons {r : Rule} {rs : List Rule} {ts ts' : List TokenType} (first : r ts = some ts') :
    sequence (r :: rs) ts = sequence rs ts' := by
  rw [sequence, first]
  rfl

theorem textLoop_lines (some_read : Bool) {key : List Text} (some_line : some_read = true ∨ key ≠ [])
    (stop : rest.head? ≠ some .text) :
    textLoop some_read (typesOf (key.map Text.token) ++ rest) = some rest := by
  induction key generalizing some_read with
  | nil =>
      have read : some_read = true := some_line.resolve_right fun absurd => absurd rfl
      rw [read]
      show textLoop true rest = some rest
      unfold textLoop
      split
      · exact absurd rfl stop
      · rfl
  | cons t key ih => exact ih true (.inl rfl)

theorem publicKey_shown {key : List Text} (some_line : key ≠ []) :
    publicKey (typesOf (publicKeyShown key) ++ rest) = some rest := by
  have lines : textLoop false (typesOf (key.map Text.token) ++ .publicKeyEnd :: rest) =
      some (.publicKeyEnd :: rest) := textLoop_lines false (.inr some_line) (by simp)
  have split : typesOf (publicKeyShown key) ++ rest =
      .publicKeyHeader :: (typesOf (key.map Text.token) ++ .publicKeyEnd :: rest) := by
    simp [publicKeyShown, typesOf, word, Token.shown]
  rw [split, publicKey, base64, sequence_cons (matchType_self _), sequence_cons lines,
    sequence_cons (matchType_self _), sequence]

theorem signature_shown {lines : List Text} (some_line : lines ≠ []) :
    signature (typesOf (signatureShown lines) ++ rest) = some rest := by
  have read : textLoop false (typesOf (lines.map Text.token) ++ .signatureEnd :: rest) =
      some (.signatureEnd :: rest) := textLoop_lines false (.inr some_line) (by simp)
  have split : typesOf (signatureShown lines) ++ rest =
      .signatureHeader :: (typesOf (lines.map Text.token) ++ .signatureEnd :: rest) := by
    simp [signatureShown, typesOf, word, Token.shown]
  rw [split, signature, base64, sequence_cons (matchType_self _), sequence_cons read,
    sequence_cons (matchType_self _), sequence]

theorem validity_shown (start stop : TimeTuple) :
    validity (typesOf (validityShown start stop) ++ rest) = some rest := rfl

/-- The arguments after the first, each with its comma. -/
def argTypes (args : List Text) : List TokenType :=
  typesOf (args.flatMap fun a => [word .comma, a.token])

theorem argLoop_args (args : List Text) (stop : rest.head? ≠ some .comma) :
    argLoop (argTypes args ++ rest) = some rest := by
  induction args with
  | nil =>
      show argLoop rest = some rest
      unfold argLoop
      split
      · exact absurd rfl stop
      · exact absurd rfl stop
      · rfl
  | cons a args ih => exact ih

theorem predicate_types (p : Predicate) : typesOf p.shown ++ rest =
    .text :: .openParen :: .text :: (argTypes p.args ++ .closeParen :: rest) := by
  rw [Predicate.shown, typesOf_append, typesOf_append, List.append_assoc, List.append_assoc]
  rfl

theorem predicate_shown (p : Predicate) : predicate (typesOf p.shown ++ rest) = some rest := by
  have args : argLoop (argTypes p.args ++ .closeParen :: rest) = some (.closeParen :: rest) :=
    argLoop_args p.args (by simp)
  rw [predicate_types, predicate, text, sequence_cons (matchType_self _),
    sequence_cons (matchType_self _), sequence_cons (matchType_self _), sequence_cons args,
    sequence_cons (matchType_self _), sequence]

theorem literal_shown (l : Literal) : literal (typesOf l.shown ++ rest) = some rest := by
  cases l with
  | predicate p =>
      have read : predicate (typesOf p.shown ++ rest) = some rest := predicate_shown p
      rw [predicate_types] at read
      show literal (typesOf p.shown ++ rest) = some rest
      rw [predicate_types]
      exact read
  | saysThat speaker p =>
      have read : predicate (typesOf p.shown ++ .closeParen :: rest) =
          some (.closeParen :: rest) := predicate_shown p
      have split : typesOf (Literal.saysThat speaker p).shown ++ rest =
          .saysWord :: .openParen :: .text :: .comma :: (typesOf p.shown ++ .closeParen :: rest) := by
        rw [Literal.shown, typesOf_append, typesOf_append, List.append_assoc, List.append_assoc]
        rfl
      rw [split, literal, sequence_cons (matchType_self _), sequence_cons (matchType_self _), text,
        sequence_cons (matchType_self _), sequence_cons (matchType_self _), sequence_cons read,
        sequence_cons (matchType_self _), sequence]

/-! ### Clauses -/

open CyclicDfa in
theorem settled : cdfa4.Settled :=
  settled_of_check (n := 20) ⟨rfl, rfl, rfl, rfl, rfl, rfl⟩ (by decide)

/-- The prediction takes the tokens `ts` from one state to another. -/
def Follows (s : Nat) (ts : List TokenType) (s' : Nat) : Prop :=
  ∀ rest p, CyclicDfa.Predicts cdfa4 typeCode s' rest p →
    CyclicDfa.Predicts cdfa4 typeCode s (ts ++ rest) p

theorem Follows.refl (s : Nat) : Follows s [] s := fun _ _ run => run

theorem Follows.step {s m t : Nat} {type : TokenType} {ts : List TokenType}
    (first : cdfa4.move s (typeCode type) = .goto m) (next : Follows m ts t) :
    Follows s (type :: ts) t := fun rest p run => .goto first (next rest p run)

theorem Follows.trans {s m t : Nat} {ts us : List TokenType} (first : Follows s ts m)
    (next : Follows m us t) : Follows s (ts ++ us) t := by
  intro rest p run
  rw [List.append_assoc]
  exact first _ p (next rest p run)

theorem follows_args {s t k : Nat} (args : List Text)
    (more : ∀ u, u = s ∨ u = t → cdfa4.move u (typeCode .comma) = .goto k)
    (next : cdfa4.move k (typeCode .text) = .goto t) :
    ∃ u, (u = s ∨ u = t) ∧ Follows s (argTypes args) u := by
  suffices general : ∀ v, v = s ∨ v = t → ∃ u, (u = s ∨ u = t) ∧ Follows v (argTypes args) u from
    general s (.inl rfl)
  induction args with
  | nil => exact fun v here => ⟨v, here, .refl v⟩
  | cons a args ih =>
      intro v here
      obtain ⟨u, ends, rest⟩ := ih t (.inr rfl)
      exact ⟨u, ends, .step (more v here) (.step next rest)⟩

theorem follows_literal (l : Literal) :
    ∃ s, (s = 8 ∨ s = 19) ∧ Follows 0 (typesOf l.shown) s := by
  cases l with
  | predicate p =>
      obtain ⟨u, ends, args⟩ := follows_args (s := 5) (t := 10) (k := 7) p.args
        (by rintro u (rfl | rfl) <;> decide) (by decide)
      have close : Follows u [.closeParen] 8 := by
        obtain rfl | rfl := ends <;> exact .step (by decide) (.refl 8)
      refine ⟨8, .inl rfl, ?_⟩
      have split : typesOf p.shown ++ [] =
          .text :: .openParen :: .text :: (argTypes p.args ++ [.closeParen]) := predicate_types p
      rw [List.append_nil] at split
      rw [show typesOf (Literal.predicate p).shown = _ from split]
      exact .step (m := 1) (by decide) (.step (m := 3) (by decide)
        (.step (m := 5) (by decide) (args.trans close)))
  | saysThat speaker p =>
      obtain ⟨u, ends, args⟩ := follows_args (s := 15) (t := 18) (k := 16) p.args
        (by rintro u (rfl | rfl) <;> decide) (by decide)
      have close : Follows u [.closeParen] 17 := by
        obtain rfl | rfl := ends <;> exact .step (by decide) (.refl 17)
      refine ⟨19, .inr rfl, ?_⟩
      have split : typesOf (Literal.saysThat speaker p).shown = .saysWord :: .openParen :: .text ::
          .comma :: .text :: .openParen :: .text ::
            ((argTypes p.args ++ [.closeParen]) ++ [.closeParen]) := by
        have shape : typesOf p.shown ++ [.closeParen] = .text :: .openParen :: .text ::
            (argTypes p.args ++ [.closeParen, .closeParen]) := predicate_types p
        rw [Literal.shown, typesOf_append, typesOf_append, List.append_assoc,
          show typesOf [word .closeParen] = [TokenType.closeParen] from rfl, shape,
          List.append_assoc]
        rfl
      rw [split]
      exact .step (m := 2) (by decide) (.step (m := 4) (by decide)
        (.step (m := 6) (by decide) (.step (m := 9) (by decide)
        (.step (m := 13) (by decide) (.step (m := 14) (by decide)
        (.step (m := 15) (by decide) ((args.trans close).trans
          (.step (by decide) (.refl 19)))))))))

theorem predict_fact (l : Literal) :
    cdfa4.predict typeCode (typesOf l.shown ++ .stop :: rest) = .alt 1 := by
  obtain ⟨s, before, along⟩ := follows_literal l
  refine CyclicDfa.predict_eq settled (along _ _ ?_)
  have first : cdfa4.move s (typeCode .stop) = .goto 11 := by
    obtain rfl | rfl := before <;> decide
  have last : ∀ c, cdfa4.move 11 c = .alt 1 := fun c => rfl
  exact .goto first (.alt (last _))

theorem predict_rule (l : Literal) :
    cdfa4.predict typeCode (typesOf l.shown ++ .implies :: rest) = .alt 2 := by
  obtain ⟨s, before, along⟩ := follows_literal l
  refine CyclicDfa.predict_eq settled (along _ _ ?_)
  have first : cdfa4.move s (typeCode .implies) = .goto 12 := by
    obtain rfl | rfl := before <;> decide
  have last : ∀ c, cdfa4.move 12 c = .alt 2 := fun c => rfl
  exact .goto first (.alt (last _))

/-- The literals after the first, each with its comma. -/
def moreTypes (more : List Literal) : List TokenType :=
  typesOf (more.flatMap fun l => word .comma :: l.shown)

theorem moreTypes_cons (l : Literal) (more : List Literal) :
    moreTypes (l :: more) ++ rest = .comma :: (typesOf l.shown ++ (moreTypes more ++ rest)) := by
  rw [moreTypes, List.flatMap_cons, typesOf_append, List.append_assoc]
  rfl

theorem literalLoop_more {fuel : Nat} (more : List Literal) (stop : rest.head? ≠ some .comma)
    (enough : (moreTypes more ++ rest).length < fuel) :
    literalLoop fuel (moreTypes more ++ rest) = some rest := by
  induction more generalizing fuel with
  | nil =>
      cases fuel with
      | zero => omega
      | succ fuel =>
          show literalLoop (fuel + 1) rest = some rest
          unfold literalLoop
          split
          · next absurd => cases absurd
          · exact absurd rfl stop
          · rfl
  | cons l more ih =>
      cases fuel with
      | zero => omega
      | succ fuel =>
          rw [moreTypes_cons] at enough ⊢
          rw [literalLoop, literal_shown]
          refine ih ?_
          simp only [List.length_cons, List.length_append] at enough ⊢
          omega

theorem clause_shown (c : Clause) : clause (typesOf c.shown ++ rest) = some rest := by
  cases c with
  | fact head =>
      have split : typesOf (Clause.fact head).shown ++ rest =
          typesOf head.shown ++ .stop :: rest := by
        rw [Clause.shown, typesOf_append, List.append_assoc]
        rfl
      rw [split, clause, predict_fact]
      show sequence [literal, matchType .stop] _ = some rest
      rw [sequence_cons (literal_shown head), sequence_cons (matchType_self _), sequence]
  | rule head first more =>
      have split : typesOf (Clause.rule head first more).shown ++ rest =
          typesOf head.shown ++ .implies :: (typesOf first.shown ++
            (moreTypes more ++ .stop :: rest)) := by
        simp only [Clause.shown, typesOf_append, List.append_assoc]
        rfl
      rw [split, clause, predict_rule]
      show sequence [literal, matchType .implies, literal, moreLiterals, matchType .stop] _ =
        some rest
      have loop : moreLiterals (moreTypes more ++ .stop :: rest) = some (.stop :: rest) :=
        literalLoop_more more (by simp) (Nat.lt_succ_self _)
      rw [sequence_cons (literal_shown head), sequence_cons (matchType_self _),
        sequence_cons (literal_shown first), sequence_cons loop, sequence_cons (matchType_self _),
        sequence]

theorem clause_head (c : Clause) : ∃ t ts, typesOf c.shown = t :: ts ∧ (t = .text ∨ t = .saysWord) := by
  have start : ∀ l : Literal, ∃ t ts, typesOf l.shown = t :: ts ∧ (t = .text ∨ t = .saysWord) := by
    intro l
    cases l with
    | predicate p => exact ⟨_, _, rfl, .inl rfl⟩
    | saysThat speaker p => exact ⟨_, _, rfl, .inr rfl⟩
  cases c with
  | fact head =>
      obtain ⟨t, ts, same, first⟩ := start head
      exact ⟨t, _, by rw [Clause.shown, typesOf_append, same]; rfl, first⟩
  | rule head body more =>
      obtain ⟨t, ts, same, first⟩ := start head
      exact ⟨t, _, by simp only [Clause.shown, typesOf_append, List.append_assoc, same]; rfl, first⟩

def clauseTypes (clauses : List Clause) : List TokenType := typesOf (clauses.flatMap Clause.shown)

theorem clauseTypes_cons (c : Clause) (clauses : List Clause) :
    clauseTypes (c :: clauses) ++ rest = typesOf c.shown ++ (clauseTypes clauses ++ rest) := by
  rw [clauseTypes, List.flatMap_cons, typesOf_append, List.append_assoc]
  rfl

theorem clauseLoop_clauses {fuel : Nat} (some_read : Bool) {clauses : List Clause}
    (some_clause : some_read = true ∨ clauses ≠ [])
    (stop : rest.head? ≠ some .text ∧ rest.head? ≠ some .saysWord)
    (enough : (clauseTypes clauses ++ rest).length < fuel) :
    clauseLoop fuel some_read (clauseTypes clauses ++ rest) = some rest := by
  induction clauses generalizing fuel some_read with
  | nil =>
      cases fuel with
      | zero => omega
      | succ fuel =>
          have read : some_read = true := some_clause.resolve_right fun absurd => absurd rfl
          show clauseLoop (fuel + 1) some_read rest = some rest
          rw [clauseLoop, if_neg (by simp [stop]), if_pos read]
  | cons c clauses ih =>
      cases fuel with
      | zero => omega
      | succ fuel =>
          obtain ⟨t, ts, same, first⟩ := clause_head c
          have head : (typesOf c.shown ++ (clauseTypes clauses ++ rest)).head? = some .text ∨
              (typesOf c.shown ++ (clauseTypes clauses ++ rest)).head? = some .saysWord := by
            rw [same]
            exact first.imp (congrArg some) (congrArg some)
          rw [clauseTypes_cons] at enough ⊢
          rw [clauseLoop, if_pos head, clause_shown]
          refine ih true (.inl rfl) ?_
          rw [same, List.cons_append, List.length_cons, List.length_append] at enough
          omega

/-! ### Credentials -/

theorem certificate_shown (c : Grammar.Certificate) (some_key : c.key ≠ [])
    (some_line : c.signature ≠ []) :
    certificate (typesOf c.shown ++ rest) = some rest := by
  have split : typesOf c.shown ++ rest = .certHeader :: (clauseTypes c.clauses ++
      (typesOf (validityShown c.start c.stop) ++ (typesOf (publicKeyShown c.key) ++
        (typesOf (signatureShown c.signature) ++ .certEnd :: rest)))) := by
    simp only [Grammar.Certificate.shown, typesOf_append, List.append_assoc]
    rfl
  have loop : ∀ rest : List TokenType, rest.head? = some .validityHeader →
      clauses (clauseTypes c.clauses ++ rest) = some rest := by
    intro rest head
    exact clauseLoop_clauses false (.inr c.someClause) (by simp [head]) (Nat.lt_succ_self _)
  rw [split, certificate, sequence_cons (matchType_self _), sequence_cons (loop _ rfl),
    sequence_cons (validity_shown c.start c.stop), sequence_cons (publicKey_shown some_key),
    sequence_cons (signature_shown some_line), sequence_cons (matchType_self _), sequence]

/-- Every body of base64 lines has a line, as the rule `base64` demands. -/
structure Derived (c : Grammar.Credential) : Prop where
  key : c.key ≠ []
  certificates : ∀ cert ∈ c.certificates, cert.key ≠ [] ∧ cert.signature ≠ []

def certificateTypes (certs : List Grammar.Certificate) : List TokenType :=
  typesOf (certs.flatMap Grammar.Certificate.shown)

theorem certificateTypes_cons (c : Grammar.Certificate) (certs : List Grammar.Certificate) :
    certificateTypes (c :: certs) ++ rest =
      typesOf c.shown ++ (certificateTypes certs ++ rest) := by
  rw [certificateTypes, List.flatMap_cons, typesOf_append, List.append_assoc]
  rfl

theorem certificateLoop_certificates {fuel : Nat} {certs : List Grammar.Certificate}
    (lines : ∀ cert ∈ certs, cert.key ≠ [] ∧ cert.signature ≠ [])
    (stop : rest.head? ≠ some .certHeader)
    (enough : (certificateTypes certs ++ rest).length < fuel) :
    certificateLoop fuel (certificateTypes certs ++ rest) = some rest := by
  induction certs generalizing fuel with
  | nil =>
      cases fuel with
      | zero => omega
      | succ fuel =>
          show certificateLoop (fuel + 1) rest = some rest
          rw [certificateLoop, if_neg stop]
  | cons c certs ih =>
      cases fuel with
      | zero => omega
      | succ fuel =>
          have here := lines c List.mem_cons_self
          have some_type : 0 < (typesOf c.shown).length := by
            simp [typesOf, Grammar.Certificate.shown]
          have head : (typesOf c.shown ++ (certificateTypes certs ++ rest)).head? =
              some .certHeader := by
            simp only [Grammar.Certificate.shown, typesOf_append, List.append_assoc]
            rfl
          rw [certificateTypes_cons] at enough ⊢
          rw [certificateLoop, if_pos head, certificate_shown c here.1 here.2]
          refine ih (fun cert member => lines cert (List.mem_cons_of_mem _ member)) ?_
          rw [List.length_append] at enough
          omega

theorem credential_derives {c : Grammar.Credential} (derived : Derived c) :
    credential (typesOf c.shown ++ rest) = some rest := by
  have split : typesOf c.shown ++ rest = .credentialHeader :: (typesOf (publicKeyShown c.key) ++
      (certificateTypes c.certificates ++ .credentialEnd :: rest)) := by
    simp only [Credential.shown, typesOf_append, List.append_assoc]
    rfl
  have loop : certificates (certificateTypes c.certificates ++ .credentialEnd :: rest) =
      some (.credentialEnd :: rest) :=
    certificateLoop_certificates derived.certificates (by simp) (Nat.lt_succ_self _)
  rw [split, credential, sequence_cons (matchType_self _),
    sequence_cons (publicKey_shown derived.key), sequence_cons loop,
    sequence_cons (matchType_self _), sequence]

theorem credential_shown {c : Grammar.Credential} (derived : Derived c) :
    credential (typesOf c.shown) = some [] := by
  have accepts : credential (typesOf c.shown ++ []) = some [] := credential_derives derived
  rwa [List.append_nil] at accepts

end

end RepositoryManager.Parser
