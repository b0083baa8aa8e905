import RepositoryManager.Parser

/-! # What the parser accepts

The converse of what `Parser` shows: the types that a rule reads are those of a phrase
that the grammar derives. Types carry no texts, so that blank ones will do.
-/

namespace RepositoryManager.Parser

open Lexer Grammar

variable {type : TokenType} {r : Rule} {rs : List Rule} {ts rest : List TokenType}

/-! ## Elements -/

theorem matchType_some : matchType type ts = some rest ↔ ts = type :: rest := by
  cases ts with
  | nil => simp [matchType]
  | cons t ts =>
      rw [matchType]
      split
      · next same => simp [same]
      · next other => simp [other]

theorem sequence_some :
    sequence (r :: rs) ts = some rest ↔ ∃ mid, r ts = some mid ∧ sequence rs mid = some rest := by
  rw [sequence, Option.bind_eq_some_iff]

theorem sequence_pair (r r' : Rule) (ts : List TokenType) :
    sequence [r, r'] ts = (r ts).bind r' := by
  rw [sequence]
  congr 1
  funext mid
  rw [sequence]
  cases r' mid <;> rfl

theorem sequence_nil : sequence [] ts = some rest ↔ ts = rest := by
  rw [sequence, Option.some_inj]

/-! ## Keys and times -/

theorem textLoop_some {some_read : Bool} (read : textLoop some_read ts = some rest) :
    ∃ key : List Text, ts = typesOf (key.map Text.token) ++ rest ∧
      (some_read = true ∨ key ≠ []) := by
  fun_induction textLoop some_read ts with
  | case1 some_read ts ih =>
      obtain ⟨key, rfl, -⟩ := ih read
      exact ⟨.blank :: key, rfl, .inr (List.cons_ne_nil _ _)⟩
  | case2 ts other =>
      cases read
      exact ⟨[], rfl, .inl rfl⟩
  | case3 => cases read

theorem publicKey_some (read : publicKey ts = some rest) :
    ∃ key : List Text, key ≠ [] ∧ ts = typesOf (publicKeyShown key) ++ rest := by
  simp only [publicKey, base64, sequence_some, sequence_nil, matchType_some] at read
  obtain ⟨_, rfl, _, lines, _, rfl, rfl⟩ := read
  obtain ⟨key, rfl, some_line⟩ := textLoop_some lines
  refine ⟨key, some_line.resolve_left (by decide), ?_⟩
  simp [publicKeyShown, typesOf, word, Token.shown]

theorem signature_some (read : signature ts = some rest) :
    ∃ lines : List Text, lines ≠ [] ∧ ts = typesOf (signatureShown lines) ++ rest := by
  simp only [signature, base64, sequence_some, sequence_nil, matchType_some] at read
  obtain ⟨_, rfl, _, read, _, rfl, rfl⟩ := read
  obtain ⟨lines, rfl, some_line⟩ := textLoop_some read
  refine ⟨lines, some_line.resolve_left (by decide), ?_⟩
  simp [signatureShown, typesOf, word, Token.shown]

theorem timeTuple_some (read : timeTuple ts = some rest) :
    ∃ t : TimeTuple, ts = typesOf t.shown ++ rest := by
  simp only [timeTuple, num, sequence_some, sequence_nil, matchType_some] at read
  obtain ⟨_, rfl, _, rfl, _, rfl, _, rfl, _, rfl, _, rfl, _, rfl, _, rfl, _, rfl, _, rfl, _, rfl,
    _, rfl, _, rfl, _, rfl, _, rfl, rfl⟩ := read
  exact ⟨⟨.blank, .blank, .blank, .blank, .blank, .blank⟩, rfl⟩

theorem validity_some (read : validity ts = some rest) :
    ∃ start stop : TimeTuple, ts = typesOf (validityShown start stop) ++ rest := by
  simp only [validity, sequence_some, sequence_nil, matchType_some] at read
  obtain ⟨_, rfl, _, rfl, _, first, _, rfl, _, second, _, rfl, rfl⟩ := read
  obtain ⟨start, rfl⟩ := timeTuple_some first
  obtain ⟨stop, rfl⟩ := timeTuple_some second
  refine ⟨start, stop, ?_⟩
  simp only [validityShown, typesOf_append, List.append_assoc]
  rfl

/-! ## Clauses -/

theorem argLoop_some (read : argLoop ts = some rest) :
    ∃ args : List Text, ts = argTypes args ++ rest := by
  fun_induction argLoop ts with
  | case1 ts ih =>
      obtain ⟨args, rfl⟩ := ih read
      exact ⟨.blank :: args, rfl⟩
  | case2 => cases read
  | case3 =>
      cases read
      exact ⟨[], rfl⟩

theorem predicate_some (read : predicate ts = some rest) :
    ∃ p : Predicate, ts = typesOf p.shown ++ rest := by
  simp only [predicate, text, sequence_some, sequence_nil, matchType_some] at read
  obtain ⟨_, rfl, _, rfl, _, rfl, _, loop, _, rfl, rfl⟩ := read
  obtain ⟨args, rfl⟩ := argLoop_some loop
  exact ⟨⟨.blank, .blank, args⟩, (predicate_types ⟨.blank, .blank, args⟩).symm⟩

theorem literal_some (read : literal ts = some rest) :
    ∃ l : Literal, ts = typesOf l.shown ++ rest := by
  unfold literal at read
  split at read
  · obtain ⟨p, same⟩ := predicate_some read
    exact ⟨.predicate p, same⟩
  · simp only [text, sequence_some, sequence_nil, matchType_some] at read
    obtain ⟨_, same, _, rfl, _, rfl, _, rfl, _, inner, _, rfl, rfl⟩ := read
    obtain ⟨p, rfl⟩ := predicate_some inner
    refine ⟨.saysThat .blank p, ?_⟩
    rw [same, Literal.shown, typesOf_append, typesOf_append, List.append_assoc, List.append_assoc]
    rfl
  · cases read

theorem literalLoop_some {fuel : Nat} (read : literalLoop fuel ts = some rest) :
    ∃ more : List Literal, ts = moreTypes more ++ rest := by
  induction fuel generalizing ts with
  | zero => cases read
  | succ fuel ih =>
      unfold literalLoop at read
      split at read
      · cases read
      · next same =>
        cases same
        obtain ⟨mid, first, loop⟩ := Option.bind_eq_some_iff.mp read
        obtain ⟨l, rfl⟩ := literal_some first
        obtain ⟨more, rfl⟩ := ih loop
        exact ⟨l :: more, (moreTypes_cons l more).symm⟩
      · cases read
        exact ⟨[], rfl⟩

theorem clause_some (read : clause ts = some rest) :
    ∃ c : Clause, ts = typesOf c.shown ++ rest := by
  unfold clause at read
  split at read
  · simp only [sequence_some, sequence_nil, matchType_some] at read
    obtain ⟨_, first, _, rfl, rfl⟩ := read
    obtain ⟨head, rfl⟩ := literal_some first
    refine ⟨.fact head, ?_⟩
    rw [Clause.shown, typesOf_append, List.append_assoc]
    rfl
  · simp only [sequence_some, sequence_nil, matchType_some] at read
    obtain ⟨_, first, _, rfl, _, second, _, loop, _, rfl, rfl⟩ := read
    obtain ⟨head, rfl⟩ := literal_some first
    obtain ⟨body, rfl⟩ := literal_some second
    obtain ⟨more, rfl⟩ := literalLoop_some loop
    refine ⟨.rule head body more, ?_⟩
    simp only [Clause.shown, typesOf_append, List.append_assoc]
    rfl
  · cases read

theorem clauseLoop_some {fuel : Nat} {some_read : Bool}
    (read : clauseLoop fuel some_read ts = some rest) :
    ∃ clauses : List Clause, ts = clauseTypes clauses ++ rest ∧
      (some_read = true ∨ clauses ≠ []) := by
  induction fuel generalizing some_read ts with
  | zero => cases read
  | succ fuel ih =>
      rw [clauseLoop] at read
      split at read
      · obtain ⟨mid, first, loop⟩ := Option.bind_eq_some_iff.mp read
        obtain ⟨c, rfl⟩ := clause_some first
        obtain ⟨clauses, rfl, -⟩ := ih loop
        exact ⟨c :: clauses, (clauseTypes_cons c clauses).symm, .inr (List.cons_ne_nil _ _)⟩
      · split at read
        · next some_clause =>
            cases read
            exact ⟨[], rfl, .inl some_clause⟩
        · cases read

/-! ## Credentials -/

theorem certificate_some (read : certificate ts = some rest) :
    ∃ c : Grammar.Certificate, (c.key ≠ [] ∧ c.signature ≠ []) ∧ ts = typesOf c.shown ++ rest := by
  simp only [certificate, sequence_some, sequence_nil, matchType_some] at read
  obtain ⟨_, rfl, _, loop, _, times, _, keyLines, _, lines, _, rfl, rfl⟩ := read
  obtain ⟨clauses, rfl, some_clause⟩ := clauseLoop_some loop
  obtain ⟨start, stop, rfl⟩ := validity_some times
  obtain ⟨key, some_key, rfl⟩ := publicKey_some keyLines
  obtain ⟨signature, some_line, rfl⟩ := signature_some lines
  refine ⟨⟨clauses, start, stop, key, signature, some_clause.resolve_left (by decide)⟩,
    ⟨some_key, some_line⟩, ?_⟩
  simp only [Grammar.Certificate.shown, typesOf_append, List.append_assoc]
  rfl

theorem certificateLoop_some {fuel : Nat} (read : certificateLoop fuel ts = some rest) :
    ∃ certs : List Grammar.Certificate, (∀ cert ∈ certs, cert.key ≠ [] ∧ cert.signature ≠ []) ∧
      ts = certificateTypes certs ++ rest := by
  induction fuel generalizing ts with
  | zero => cases read
  | succ fuel ih =>
      rw [certificateLoop] at read
      split at read
      · obtain ⟨mid, first, loop⟩ := Option.bind_eq_some_iff.mp read
        obtain ⟨c, lines, rfl⟩ := certificate_some first
        obtain ⟨certs, all, rfl⟩ := ih loop
        exact ⟨c :: certs, List.forall_mem_cons.mpr ⟨lines, all⟩,
          (certificateTypes_cons c certs).symm⟩
      · cases read
        exact ⟨[], List.forall_mem_nil _, rfl⟩

theorem credential_some :
    credential ts = some rest ↔ ∃ c, Derived c ∧ ts = typesOf c.shown ++ rest := by
  constructor
  · intro read
    simp only [credential, sequence_some, sequence_nil, matchType_some] at read
    obtain ⟨_, rfl, _, keyLines, _, loop, _, rfl, rfl⟩ := read
    obtain ⟨key, some_key, rfl⟩ := publicKey_some keyLines
    obtain ⟨certs, lines, rfl⟩ := certificateLoop_some loop
    refine ⟨⟨key, certs⟩, ⟨some_key, lines⟩, ?_⟩
    simp only [Credential.shown, typesOf_append, List.append_assoc]
    rfl
  · rintro ⟨c, derived, rfl⟩
    exact credential_derives derived

/-- The tokens begin with those of a derivation from `credential`. -/
def Derives (tokens : List Token) : Prop :=
  ∃ c, Derived c ∧ typesOf c.shown <+: typesOf tokens

theorem derives_iff {tokens : List Token} :
    Derives tokens ↔ ∃ rest, credential (typesOf tokens) = some rest := by
  simp only [credential_some]
  constructor
  · rintro ⟨c, derived, rest, same⟩
    exact ⟨rest, c, derived, same.symm⟩
  · rintro ⟨rest, c, derived, same⟩
    exact ⟨c, derived, rest, same.symm⟩

end RepositoryManager.Parser
