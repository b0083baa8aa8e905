import RepositoryManager.RecoveringParser

/-! # The rules as code

The rules of `RepositoryManagerParser.c` as syntax trees of what ANTLR generates: matches,
calls, loops and predictions. What the code does to the tokens ahead is what `RecoveringParser`
says; and each pass of a loop takes a token or moves the error index, so that no loop goes on
for ever, whatever the tokens are.
-/

namespace RepositoryManager.BaseRecognizer

open ByteString Lexer

/-- The generated code of a rule, or of a part of one. -/
inductive Code where
  | done
  | matchToken (type : TokenType) (follow : FollowSet)
  | call (follow : FollowSet) (body : Code)
  | rewritten (texts : List Str) (body : Code)
  | seq (first rest : Code)
  | star (types : List TokenType) (body : Code)
  | plus (types : List TokenType) (body : Code)
  /-- `switch` on the next token. -/
  | switch (type : TokenType) (body : Code) (type' : TokenType) (body' : Code)
  /-- An alternative chosen by a decision table. -/
  | predict (d : CyclicDfa) (body body' : Code)

/-- Two elements, one after the other. -/
def andThen (e e' : Element) : Element := fun following s =>
  match e following s with
  | (some texts, s) => ((e' following s).1.map (texts ++ ·), (e' following s).2)
  | (none, s) => (none, s)

def raise : Element := fun _ s => (none, s)

/-- What the code does on the tokens ahead. -/
def Code.element : Code → Element
  | .done => elements []
  | .matchToken type follow => BaseRecognizer.matchToken type follow
  | .call follow body => BaseRecognizer.call follow (rule body.element)
  | .rewritten texts body => BaseRecognizer.rewritten texts body.element
  | .seq first rest => andThen first.element rest.element
  | .star types body => zeroOrMore types body.element
  | .plus types body => oneOrMore types body.element
  | .switch type body type' body' => fun following s =>
      if s.next = some type then body.element following s
      else if s.next = some type' then body'.element following s
      else raise following s
  | .predict d body body' => fun following s =>
      match d.predict Parser.typeCode (Parser.typesOf s.ahead) with
      | .alt 1 => body.element following s
      | .alt 2 => body'.element following s
      | _ => raise following s

def Code.sequence : List Code → Code
  | [] => .done
  | c :: cs => .seq c (sequence cs)

theorem sequence_element (cs : List Code) :
    (Code.sequence cs).element = elements (cs.map Code.element) := by
  induction cs with
  | nil => rfl
  | cons c cs ih =>
      rw [Code.sequence, Code.element, ih]
      rfl

end RepositoryManager.BaseRecognizer

namespace RepositoryManager.RecoveringParser

open ByteString BaseRecognizer Lexer

/-! ## The rules -/

def textCode : Code := .matchToken .text .eor

def numCode : Code := .matchToken .num .eor

def base64Code : Code := .plus [.text] (.call ⟨[.text], true⟩ textCode)

def publicKeyCode : Code :=
  .sequence [.matchToken .publicKeyHeader (.only .text), .call (.only .publicKeyEnd) base64Code,
    .matchToken .publicKeyEnd .eor]

def signatureCode : Code :=
  .sequence [.matchToken .signatureHeader (.only .text), .call (.only .signatureEnd) base64Code,
    .matchToken .signatureEnd .eor]

def timeTupleCode : Code :=
  .sequence [.matchToken .datime (.only .openParen), .matchToken .openParen (.only .num),
    .call (.only .comma) numCode, .matchToken .comma (.only .num),
    .call (.only .comma) numCode, .matchToken .comma (.only .num),
    .call (.only .comma) numCode, .matchToken .comma (.only .num),
    .call (.only .comma) numCode, .matchToken .comma (.only .num),
    .call (.only .comma) numCode, .matchToken .comma (.only .num),
    .call (.only .closeParen) numCode, .matchToken .closeParen (.only .stop),
    .matchToken .stop .eor]

def validityCode : Code :=
  .sequence [.rewritten [] (.matchToken .validityHeader (.only .notBefore)),
    .rewritten [startTimeS] (.matchToken .notBefore (.only .datime)),
    .call (.only .notAfter) timeTupleCode,
    .rewritten [stopTimeS] (.matchToken .notAfter (.only .datime)),
    .call (.only .validityEnd) timeTupleCode,
    .rewritten [] (.matchToken .validityEnd .eor)]

def moreTextsCode : Code :=
  .star [.comma] (.sequence [.matchToken .comma (.only .text),
    .call ⟨[.closeParen, .comma], false⟩ textCode])

def predicateCode : Code :=
  .sequence [.call (.only .openParen) textCode, .matchToken .openParen (.only .text),
    .call ⟨[.closeParen, .comma], false⟩ textCode, moreTextsCode, .matchToken .closeParen .eor]

def saysThatCode : Code :=
  .sequence [.matchToken .saysWord (.only .openParen), .matchToken .openParen (.only .text),
    .call (.only .comma) textCode, .matchToken .comma (.only .text),
    .call (.only .closeParen) predicateCode, .matchToken .closeParen .eor]

def literalCode : Code := .switch .text (.call .eor predicateCode) .saysWord saysThatCode

def factCode : Code := .sequence [.call (.only .stop) literalCode, .matchToken .stop .eor]

def moreLiteralsCode : Code :=
  .star [.comma] (.sequence [.matchToken .comma literalStart,
    .call ⟨[.comma, .stop], false⟩ literalCode])

def implicationCode : Code :=
  .sequence [.call (.only .implies) literalCode, .matchToken .implies literalStart,
    .call ⟨[.comma, .stop], false⟩ literalCode, moreLiteralsCode, .matchToken .stop .eor]

def clauseCode : Code := .predict Parser.cdfa4 factCode implicationCode

def certificateCode : Code :=
  .sequence [.rewritten [certS, clauseS] (.matchToken .certHeader literalStart),
    .plus [.text, .saysWord] (.call ⟨[.text, .saysWord, .validityHeader], false⟩ clauseCode),
    .call (.only .publicKeyHeader) validityCode, .call (.only .signatureHeader) publicKeyCode,
    .call (.only .certEnd) signatureCode, .rewritten [endCertS] (.matchToken .certEnd .eor)]

/-- The rule `credential`. -/
def credentialCode : Code :=
  .sequence [.rewritten [] (.matchToken .credentialHeader (.only .publicKeyHeader)),
    .call ⟨[.certHeader, .credentialEnd], false⟩ publicKeyCode,
    .star [.certHeader] (.call ⟨[.certHeader, .credentialEnd], false⟩ certificateCode),
    .rewritten [endS] (.matchToken .credentialEnd .eor)]

theorem predicate_element : rule predicateCode.element = predicate := by
  rw [predicateCode, sequence_element]
  rfl

theorem literal_element : rule literalCode.element = literal := by
  have quoted : saysThatCode.element = saysThat := by
    rw [saysThatCode, sequence_element]
    simp only [List.map_cons, List.map_nil, Code.element, predicate_element]
    rfl
  unfold literal
  congr 1
  funext following s
  simp only [literalCode, Code.element, predicate_element, quoted]
  generalize s.next = next
  by_cases text : next = some .text
  · subst text
    rfl
  · by_cases saysWord : next = some .saysWord
    · subst saysWord
      rfl
    · rw [if_neg text, if_neg saysWord]
      split
      · exact absurd rfl text
      · exact absurd rfl saysWord
      · rfl

theorem clause_element : rule clauseCode.element = clause := by
  have fact_same : factCode.element = fact := by
    rw [factCode, sequence_element]
    simp only [List.map_cons, List.map_nil, Code.element, literal_element]
    rfl
  have implication_same : implicationCode.element = implication := by
    rw [implicationCode, sequence_element]
    simp only [List.map_cons, List.map_nil, Code.element, literal_element, moreLiteralsCode,
      sequence_element]
    rfl
  simp only [clauseCode, Code.element, fact_same, implication_same]
  rfl

theorem publicKey_element : rule publicKeyCode.element = publicKey := by
  rw [publicKeyCode, sequence_element]
  rfl

theorem signature_element : rule signatureCode.element = signature := by
  rw [signatureCode, sequence_element]
  rfl

theorem timeTuple_element : rule timeTupleCode.element = timeTuple := by
  rw [timeTupleCode, sequence_element]
  rfl

theorem validity_element : rule validityCode.element = validity := by
  rw [validityCode, sequence_element]
  simp only [List.map_cons, List.map_nil, Code.element, timeTuple_element]
  rfl

theorem credential_element :
    credentialCode.element = elements (credentialFront ++ [credentialEnd]) := by
  have cert : rule certificateCode.element = certificate := by
    rw [certificateCode, sequence_element]
    simp only [List.map_cons, List.map_nil, Code.element, clause_element, validity_element,
      publicKey_element, signature_element]
    rfl
  rw [credentialCode, sequence_element]
  simp only [List.map_cons, List.map_nil, Code.element, publicKey_element, cert]
  rfl

end RepositoryManager.RecoveringParser

namespace RepositoryManager.BaseRecognizer

open ByteString Lexer

/-! ## Every loop ends -/

variable {e : Element} {following : List FollowSet} {s s' : State} {types : List TokenType}

theorem passes_lt (shorter : s'.ahead.length < s.ahead.length) : s'.passes < s.passes := by
  unfold State.passes
  split <;> omega

theorem reportError_passes (s : State) : (reportError s).passes = s.passes := by
  unfold reportError
  split <;> rfl

/-- A second failure at one token takes this token, and a first one is noted. -/
theorem recover_passes (some_pass : 0 < s.passes) : (recover following s).passes < s.passes := by
  generalize test : (fun t : Token => !(combineFollows following).types.contains t.type) = skipped
  by_cases again : s.lastErrorIndex = some s.ahead.length
  · have left : (recover following s).ahead = s.ahead.tail.dropWhile skipped := by
      simp only [recover, if_pos again, test]
    have someToken : 0 < s.ahead.length := by
      rw [State.passes, if_pos again] at some_pass
      omega
    refine passes_lt ?_
    have shorter := (List.dropWhile_sublist skipped (l := s.ahead.tail)).length_le
    rw [left]
    rw [List.length_tail] at shorter
    omega
  · have left : recover following s = { s with
        lastErrorIndex := some s.ahead.length, ahead := s.ahead.dropWhile skipped } := by
      simp only [recover, if_neg again, test]
    have shorter := (List.dropWhile_sublist skipped (l := s.ahead)).length_le
    rw [left, State.passes, State.passes, if_neg again]
    simp only [Option.some.injEq]
    split <;> omega

theorem recover_passes_le (following : List FollowSet) (s : State) :
    (recover following s).passes ≤ s.passes := by
  by_cases some_pass : 0 < s.passes
  · exact Nat.le_of_lt (recover_passes some_pass)
  · have none : s.ahead = [] ∧ s.lastErrorIndex = some 0 := by
      unfold State.passes at some_pass
      split at some_pass
      · next same =>
          have empty : s.ahead.length = 0 := by omega
          exact ⟨List.length_eq_zero_iff.mp empty, by rw [same, empty]⟩
      · omega
    simp [recover, State.passes, none]

/-- No element gives back a token or forgets where the last error was. -/
def Shrinks (e : Element) : Prop := ∀ following s, (e following s).2.passes ≤ s.passes

/-- At one of the types, the element gets on or raises an exception. -/
def Advances (types : List TokenType) (e : Element) : Prop :=
  ∀ following s, s.at types = true → (e following s).2.passes < s.passes ∨ (e following s).1 = none

theorem leave_passes (out : Option (List Str) × State) :
    (leave following out).passes ≤ out.2.passes := by
  obtain ⟨_ | texts, s⟩ := out
  · exact (recover_passes_le following (reportError s)).trans (reportError_passes s).le
  · exact Nat.le_refl _

theorem matchToken_passes (type : TokenType) (follow : FollowSet) (following : List FollowSet)
    (s : State) : (matchToken type follow following s).2.passes ≤ s.passes := by
  have missing : (insertMissing type follow following s).2.passes ≤ s.passes := by
    unfold insertMissing
    split
    · exact (reportError_passes s).le
    · exact Nat.le_refl _
  have mismatch : (recoverFromMismatchedToken type follow following s).2.passes ≤ s.passes := by
    unfold recoverFromMismatchedToken
    split
    · next u t ts whole =>
        split
        · refine Nat.le_of_lt (passes_lt ?_)
          simp only [whole, List.length_cons]
          omega
        · exact missing
    · exact missing
  unfold matchToken
  split
  · next t ts whole =>
      split
      · exact Nat.le_of_lt (passes_lt (by simp [whole]))
      · exact mismatch
  · exact mismatch

theorem andThen_shrinks {e e' : Element} (first : Shrinks e) (rest : Shrinks e') :
    Shrinks (andThen e e') := by
  intro following s
  have here := first following s
  unfold andThen
  split
  · next texts s' same =>
      rw [same] at here
      exact (rest following s').trans here
  · next s' same =>
      rw [same] at here
      exact here

theorem andThen_advances {e e' : Element} (first : Advances types e) (rest : Shrinks e') :
    Advances types (andThen e e') := by
  intro following s on
  unfold andThen
  rcases first following s on with shorter | raised
  · split
    · next texts s' same =>
        rw [same] at shorter
        exact .inl ((rest following s').trans_lt shorter)
    · exact .inr rfl
  · split
    · next same =>
        rw [same] at raised
        cases raised
    · exact .inr rfl

theorem loop_succ (types : List TokenType) (e : Element) (fuel : Nat) (following : List FollowSet)
    (s : State) : loop types e (fuel + 1) following s =
      if s.at types then andThen e (loop types e fuel) following s else (some [], s) := by
  have last : andThen (loop types e fuel) (elements []) = loop types e fuel := by
    funext following s
    unfold andThen
    split
    · next same => simp [same, elements]
    · next same => exact same.symm
  rw [loop]
  split
  · show andThen e (andThen (loop types e fuel) (elements [])) following s = _
    rw [last]
  · rfl

theorem loop_shrinks (shrinks : Shrinks e) (fuel : Nat) : Shrinks (loop types e fuel) := by
  induction fuel with
  | zero => exact fun _ _ => Nat.le_refl _
  | succ fuel ih =>
      intro following s
      rw [loop_succ]
      split
      · exact andThen_shrinks shrinks ih following s
      · exact Nat.le_refl _

theorem Code.shrinks (c : Code) : Shrinks c.element := by
  induction c with
  | done => exact fun _ _ => Nat.le_refl _
  | matchToken type follow => exact matchToken_passes type follow
  | call follow body ih => exact fun following s => (leave_passes _).trans (ih _ s)
  | rewritten texts body ih => exact ih
  | seq first rest ih ih' => exact andThen_shrinks ih ih'
  | star types body ih => exact fun following s => loop_shrinks ih _ following s
  | plus types body ih =>
      intro following s
      simp only [Code.element, oneOrMore]
      split
      · exact loop_shrinks ih _ following s
      · exact Nat.le_refl _
  | switch type body type' body' ih ih' =>
      intro following s
      simp only [Code.element]
      split
      · exact ih following s
      · split
        · exact ih' following s
        · exact Nat.le_refl _
  | predict d body body' ih ih' =>
      intro following s
      simp only [Code.element]
      split
      · exact ih following s
      · exact ih' following s
      · exact Nat.le_refl _

/-- The code takes a token when it begins at one of the types, or raises an exception. -/
def Code.starts : Code → List TokenType → Bool
  | .matchToken type _, types => types.all (· = type)
  | .call _ body, types => body.starts types
  | .rewritten _ body, types => body.starts types
  | .seq first _, types => first.starts types
  | .plus types' body, _ => body.starts types'
  | .switch type body type' body', _ => body.starts [type] && body'.starts [type']
  | .predict _ body body', types => body.starts types && body'.starts types
  | .done, _ => false
  | .star _ _, _ => false

theorem next_of_at {types : List TokenType} (on : s.at types = true) :
    ∃ t ts, s.ahead = t :: ts ∧ t.type ∈ types := by
  unfold State.at State.next at on
  cases whole : s.ahead with
  | nil => simp [whole] at on
  | cons t ts => exact ⟨t, ts, rfl, by simpa [whole] using on⟩

theorem at_next {type : TokenType} (next : s.next = some type) : s.at [type] = true := by
  simp [State.at, next]

theorem Code.advances (c : Code) (types : List TokenType) (starts : c.starts types = true) :
    Advances types c.element := by
  induction c generalizing types with
  | done => cases starts
  | matchToken type follow =>
      intro following s on
      obtain ⟨t, ts, whole, member⟩ := next_of_at on
      have same : t.type = type := by simpa using List.all_eq_true.mp starts _ member
      refine .inl (passes_lt ?_)
      simp [Code.element, BaseRecognizer.matchToken, whole, same]
  | call follow body ih =>
      intro following s on
      refine .inl ?_
      obtain ⟨t, ts, whole, -⟩ := next_of_at on
      have some_pass : 0 < s.passes := by
        rw [State.passes, whole, List.length_cons]
        omega
      show (leave (follow :: following) (body.element (follow :: following) s)).passes < s.passes
      have bounded := body.shrinks (follow :: following) s
      rcases ih types starts (follow :: following) s on with shorter | raised
      · exact (leave_passes _).trans_lt shorter
      · generalize body.element (follow :: following) s = out at raised bounded
        obtain ⟨_, s'⟩ := out
        cases raised
        by_cases left : 0 < (reportError s').passes
        · have shorter : (recover (follow :: following) (reportError s')).passes <
              (reportError s').passes := recover_passes left
          rw [reportError_passes] at shorter
          exact shorter.trans_le bounded
        · have stays := recover_passes_le (follow :: following) (reportError s')
          exact (stays.trans (Nat.le_of_not_lt left)).trans_lt some_pass
  | rewritten texts body ih =>
      intro following s on
      exact (ih types starts following s on).imp_right fun raised => by
        simp [Code.element, BaseRecognizer.rewritten, raised]
  | seq first rest ih ih' => exact andThen_advances (ih types starts) rest.shrinks
  | star types' body ih => cases starts
  | plus types' body ih =>
      intro following s _
      simp only [Code.element, oneOrMore]
      split
      · next on =>
          rw [zeroOrMore, loop_succ, if_pos on]
          exact andThen_advances (ih types' starts) (loop_shrinks body.shrinks _) following s on
      · exact .inr rfl
  | switch type body type' body' ih ih' =>
      obtain ⟨first, second⟩ := Bool.and_eq_true_iff.mp starts
      intro following s _
      simp only [Code.element]
      split
      · next next => exact ih [type] first following s (at_next next)
      · split
        · next next => exact ih' [type'] second following s (at_next next)
        · exact .inr rfl
  | predict d body body' ih ih' =>
      obtain ⟨first, second⟩ := Bool.and_eq_true_iff.mp starts
      intro following s on
      simp only [Code.element]
      split
      · exact ih types first following s on
      · exact ih' types second following s on
      · exact .inr rfl

/-- Every loop of the code starts each of its passes with a token. -/
def Code.wellFormed : Code → Bool
  | .done => true
  | .matchToken _ _ => true
  | .call _ body => body.wellFormed
  | .rewritten _ body => body.wellFormed
  | .seq first rest => first.wellFormed && rest.wellFormed
  | .star types body => body.starts types && body.wellFormed
  | .plus types body => body.starts types && body.wellFormed
  | .switch _ body _ body' => body.wellFormed && body'.wellFormed
  | .predict _ body body' => body.wellFormed && body'.wellFormed

theorem credential_wellFormed : RecoveringParser.credentialCode.wellFormed = true := by decide

end RepositoryManager.BaseRecognizer
